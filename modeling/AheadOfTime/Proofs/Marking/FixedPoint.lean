import AheadOfTime.Proofs.Marking.Rounds
import Mathlib.Data.Set.Finite.Basic

/-!
# The marked nodes are the needed ones

`Needed` is the least set that contains the roots and is closed under the edges of the system: those
of members that expand, those whose condition is a member too, and those that dynamic members find
over other members.  Whatever was done before, a run that is not cancelled ends if that set is
finite, and then the marked nodes are exactly its members.

What was done before is a `History`: roots were added and runs were made in any order, each of them
finished or cancelled at any point.
-/

set_option autoImplicit false

namespace AheadOfTime.Marking

namespace NodeSystem

variable {N ε σ ω : Type} [Recorder σ ω] [Inhabited σ]

/-- The nodes that the roots lead to. -/
inductive Needed (sys : NodeSystem N ε σ) (roots : List N) : N → Prop
  /-- Roots are needed. -/
  | root {n : N} : n ∈ roots → sys.Needed roots n
  /-- So is the target of every edge. -/
  | edge {n : N} {x : Expansion N} {e : Edge N} : sys.Needed roots n →
      (sys.expand n).value = .ok x → e ∈ x.edges → sys.Needed roots e.target
  /-- So is the target of every conditional edge whose condition is needed. -/
  | conditional {n : N} {x : Expansion N} {e : ConditionalEdge N} : sys.Needed roots n →
      (sys.expand n).value = .ok x → e ∈ x.conditional → sys.Needed roots e.condition →
      sys.Needed roots e.target
  /-- So is the target of every edge that a dynamic node finds over a needed node. -/
  | dynamic {n m : N} {x : Expansion N} {one : List (Edge N)} {e : Edge N} :
      sys.Needed roots n → (sys.expand n).value = .ok x → sys.isDynamic n = true →
      sys.Needed roots m → (sys.search n [m]).value = .ok one → e ∈ one →
      sys.Needed roots e.target

variable {sys : NodeSystem N ε σ} {roots roots' : List N}

/-- More roots need more. -/
theorem Needed.mono {n : N} (h : sys.Needed roots n) (hsub : ∀ r ∈ roots, r ∈ roots') :
    sys.Needed roots' n := by
  induction h with
  | root hr => exact .root (hsub _ hr)
  | edge _ hx he ih => exact .edge ih hx he
  | conditional _ hx he _ ih ihc => exact .conditional ih hx he ihc
  | dynamic _ hx hd _ hone he ih ihm => exact .dynamic ih hx hd ihm hone he

/-- The needed nodes belong to every closed set that contains the roots. -/
theorem Needed.of_closed {C : N → Prop} {n : N} (h : sys.Needed roots n) (hC : sys.Closed C)
    (hroots : ∀ r ∈ roots, C r) : C n := by
  induction h with
  | root hr => exact hroots _ hr
  | edge _ hx he ih => exact hC.edge ih hx _ he
  | conditional _ hx he _ ih ihc => exact hC.conditional ih hx _ he ihc
  | @dynamic n m x one e _ hx hd _ hone he ih ihm =>
    have hm : ∀ m' ∈ [m], C m' := by simpa using ihm
    exact hC.dynamic ih hx hd hm hone e he

/-- Which nodes are deferred, and which ask to stop, does not matter to what is needed. -/
theorem needed_iff_of_treatment (deferred stops : N → Bool) {n : N} :
    { sys with isDeferred := deferred, requestsStop := stops }.Needed roots n ↔
      sys.Needed roots n := by
  constructor
  · intro h
    induction h with
    | root hr => exact .root hr
    | edge _ hx he ih => exact .edge ih hx he
    | conditional _ hx he _ ih ihc => exact .conditional ih hx he ihc
    | dynamic _ hx hd _ hone he ih ihm => exact .dynamic ih hx hd ihm hone he
  · intro h
    induction h with
    | root hr => exact .root hr
    | edge _ hx he ih => exact .edge ih hx he
    | conditional _ hx he _ ih ihc => exact .conditional ih hx he ihc
    | dynamic _ hx hd _ hone he ih ihm => exact .dynamic ih hx hd ihm hone he

/-- If searches work node by node, nothing leads out of the needed nodes. -/
theorem closed_needed (hsys : sys.NodeByNode) (roots : List N) :
    sys.Closed (sys.Needed roots) :=
  hsys.closed (fun hn hx _ he => .edge hn hx he)
    (fun hn hx _ he hc => .conditional hn hx he hc)
    (fun hn hx hd hm hone _ he => .dynamic hn hx hd hm hone he)

end NodeSystem

namespace Analysis

variable {N ε σ ω : Type} [BEq N] [LawfulBEq N] [Hashable N] [Recorder σ ω] [Inhabited σ]

/-- The states that adding roots and running lead to.  A request to stop may come at any time:
between two runs, or while a node is expanded. -/
inductive History (sys : NodeSystem N ε σ) : List N → Analysis N ε → Prop
  /-- Nothing is marked yet. -/
  | fresh : History sys [] {}
  /-- A root was added. -/
  | addRoot {roots : List N} {s : Analysis N ε} (n : N) (label : String) :
      History sys roots s → History sys (roots ++ [n]) (s.addRoot sys n label)
  /-- A run was finished. -/
  | finished {roots : List N} {s s' : Analysis N ε} (stops : N → Bool) (fuel : Nat) :
      History sys roots s → (run { sys with requestsStop := stops } fuel s).value = .finished s' →
      History sys roots s'
  /-- A run was cancelled. -/
  | cancelled {roots : List N} {s s' : Analysis N ε} (stops : N → Bool) (fuel : Nat) :
      History sys roots s → (run { sys with requestsStop := stops } fuel s).value = .cancelled s' →
      History sys roots s'
  /-- A request to stop was made or withdrawn. -/
  | signalled {roots : List N} {s : Analysis N ε} (heeds asked : Bool) :
      History sys roots s → History sys roots { s with heedsStop := heeds, stopRequested := asked }

variable {sys : NodeSystem N ε σ} {C : N → Prop} {roots : List N} {s s' : Analysis N ε}

/-- Nothing has been done yet. -/
theorem Valid.fresh : Valid sys C {} := by
  have hnodes : ({} : Analysis N ε).nodes = [] := rfl
  refine ⟨⟨?_, ?_, ?_, ?_⟩, Nat.le_refl 0, Nat.le_refl 0, Nat.le_refl 0, ?_, ?_⟩
  · simp [hnodes]
  · intro c w hw
    simp [waitingFor] at hw
  · simp [hnodes]
  · intro f hf
    simp [failures] at hf
  · simp [hnodes]
  · simp [hnodes]

/-- Adding a root of the set keeps a state valid. -/
theorem Valid.addRoot (h : Valid sys C s) (hC : sys.Closed C) {n : N} (hn : C n)
    (label : String) : Valid sys C (s.addRoot sys n label) :=
  ⟨h.sound.mark hC hn _, h.progress.mono (mark_extends sys s n _)⟩

/-- A request to stop does not change what has been done. -/
theorem Valid.signalled (h : Valid sys C s) (heeds asked : Bool) :
    Valid sys C { s with heedsStop := heeds, stopRequested := asked } := by
  obtain ⟨hs, hp⟩ := h
  refine ⟨⟨hs.within, hs.waiting, hs.dynamic, hs.failures⟩, ?_⟩
  exact hp.advance ⟨List.prefix_rfl, List.prefix_rfl, fun _ _ h => h⟩ hp.expanded_le
    hp.batched_le rfl fun _ hold hi => absurd hi (Nat.not_lt.2 hold)

/-- Several roots of the same kind may be added, all of which become marked. -/
theorem Valid.addRoots (h : Valid sys C s) (hC : sys.Closed C) (label : String) {l : List N}
    (hl : ∀ n ∈ l, C n) :
    Valid sys C (l.foldl (fun s n => s.addRoot sys n label) s) ∧
      s.Extends (l.foldl (fun s n => s.addRoot sys n label) s) ∧
      ∀ n ∈ l, n ∈ (l.foldl (fun s n => s.addRoot sys n label) s).nodes := by
  refine ⟨?_, extends_foldl _ (fun s n => mark_extends sys s n _) l s, ?_⟩
  · induction l generalizing s with
    | nil => exact h
    | cons n l ih =>
      refine ih (h.addRoot hC (hl n List.mem_cons_self) label) ?_
      exact fun m hm => hl m (List.mem_cons_of_mem _ hm)
  · exact forall_mem_foldl _ (fun s n => mark_extends sys s n _) (fun n s => n ∈ s.nodes)
      (fun s n => mem_mark sys s n _) (fun _ _ _ hg hn => hg.mem hn) l s

/-- Which nodes ask to stop does not matter to a state. -/
theorem Valid.requestsStop {stops : N → Bool} :
    Valid { sys with requestsStop := stops } C s ↔ Valid sys C s := by
  constructor <;> rintro ⟨hs, hp⟩ <;>
    exact ⟨⟨hs.within, hs.waiting, hs.dynamic, hs.failures⟩,
      ⟨hp.expanded_le, hp.batched_le, hp.shown_le, hp.handled, hp.searched⟩⟩

/-- Whichever nodes ask to stop, a run leads on as it should. -/
theorem Valid.run_requestsStop (hsys : sys.NodeByNode) (hC : sys.Closed C) (h : Valid sys C s)
    (stops : N → Bool) (fuel : Nat) :
    Leads sys C s (Analysis.run { sys with requestsStop := stops } fuel s).value := by
  have hC' : NodeSystem.Closed { sys with requestsStop := stops } C :=
    ⟨hC.edge, hC.conditional, hC.dynamic⟩
  have hsys' : NodeSystem.NodeByNode { sys with requestsStop := stops } :=
    ⟨hsys.answers, hsys.mem_iff⟩
  have hleads := (Valid.requestsStop.2 h : Valid { sys with requestsStop := stops } C s).run
    hC' hsys' fuel
  cases ho : (Analysis.run { sys with requestsStop := stops } fuel s).value with
  | finished s' =>
    rw [ho] at hleads
    obtain ⟨hv, hg, hc⟩ := hleads
    exact ⟨Valid.requestsStop.1 hv, hg, hc.edge, hc.conditional, hc.failed, hc.dynamic⟩
  | cancelled s' =>
    rw [ho] at hleads
    exact ⟨Valid.requestsStop.1 hleads.1, hleads.2⟩
  | exhausted => trivial

/-- Whatever was done, the state is as a run needs it, the roots are marked, and every marked node
is needed. -/
theorem History.valid (hsys : sys.NodeByNode) (h : History sys roots s) :
    Valid sys (sys.Needed roots) s ∧ ∀ r ∈ roots, r ∈ s.nodes := by
  induction h with
  | fresh => exact ⟨.fresh, by simp⟩
  | @addRoot roots s n label _ ih =>
    obtain ⟨hv, hroots⟩ := ih
    have hmono : ∀ m, sys.Needed roots m → sys.Needed (roots ++ [n]) m := fun m hm =>
      hm.mono fun r hr => List.mem_append_left _ hr
    refine ⟨(hv.mono hmono).addRoot (sys.closed_needed hsys _) (.root (by simp)) label, ?_⟩
    intro r hr
    rcases List.mem_append.1 hr with hr | hr
    · exact (mark_extends sys s n _).mem (hroots r hr)
    · rw [List.mem_singleton.1 hr]
      exact mem_mark sys s n _
  | @finished roots s s' stops fuel _ hrun ih =>
    obtain ⟨hv, hg, -⟩ : Leads sys _ _ (.finished s') := by
      rw [← hrun]
      exact ih.1.run_requestsStop hsys (sys.closed_needed hsys _) stops fuel
    exact ⟨hv, fun r hr => hg.mem (ih.2 r hr)⟩
  | @cancelled roots s s' stops fuel _ hrun ih =>
    obtain ⟨hv, hg⟩ : Leads sys _ _ (.cancelled s') := by
      rw [← hrun]
      exact ih.1.run_requestsStop hsys (sys.closed_needed hsys _) stops fuel
    exact ⟨hv, fun r hr => hg.mem (ih.2 r hr)⟩
  | signalled heeds asked _ ih => exact ⟨ih.1.signalled heeds asked, ih.2⟩

/-- Every needed node is marked once a run is finished, if searches never fail. -/
theorem Complete.mem_of_needed (hsearch : ∀ n l, ∃ found, (sys.search n l).value = .ok found)
    (hs : Sound sys C s) (hc : Complete sys s) (hroots : ∀ r ∈ roots, r ∈ s.nodes) {n : N}
    (h : sys.Needed roots n) : n ∈ s.nodes := by
  induction h with
  | root hr => exact hroots _ hr
  | edge _ hx he ih => exact hc.edge ih hx _ he
  | conditional _ hx he _ ih ihc => exact hc.conditional ih hx _ he ihc
  | @dynamic n m x one e _ hx hd _ hone he ih ihm =>
    rcases hc.dynamic ih hd with ⟨f, hf, rfl⟩ | hall
    · -- the node has not failed: its expansion succeeds, and so does every search
      rcases (hs.failures f hf).2 with herr | ⟨l, -, herr⟩
      · rw [hx] at herr
        cases herr
      · obtain ⟨found, hfound⟩ := hsearch f.node l
        rw [hfound] at herr
        cases herr
    · obtain ⟨one', hone', htargets⟩ := hall m ihm
      rw [hone] at hone'
      cases hone'
      exact htargets e he

/-- Whenever a run is finished, the marked nodes are the needed ones. -/
theorem History.mem_nodes_iff (hsys : sys.NodeByNode)
    (hsearch : ∀ n l, ∃ found, (sys.search n l).value = .ok found) (h : History sys roots s)
    {fuel : Nat} (hrun : (run sys fuel s).value = .finished s') (n : N) :
    n ∈ s'.nodes ↔ sys.Needed roots n := by
  obtain ⟨hv, hroots⟩ := h.valid hsys
  have hleads := hv.run (sys.closed_needed hsys roots) hsys fuel
  rw [hrun] at hleads
  obtain ⟨hv', hg, hc⟩ := hleads
  constructor
  · exact hv'.sound.within n
  · exact hc.mem_of_needed hsearch hv'.sound fun r hr => hg.mem (hroots r hr)

/-- If finitely many nodes are needed, a run ends, and with enough fuel its outcome does not depend on
the fuel. -/
theorem Valid.exists_bound (hsys : sys.NodeByNode) (hv : Valid sys (sys.Needed roots) s)
    (hfin : { n | sys.Needed roots n }.Finite) :
    ∃ bound, (Analysis.run sys bound s).value ≠ .exhausted ∧
      ∀ fuel, bound ≤ fuel →
        (Analysis.run sys fuel s).value = (Analysis.run sys bound s).value := by
  let L : List N := hfin.toFinset.toList
  have hL : ∀ n, n ∈ L ↔ sys.Needed roots n := by simp [L]
  have hpred : (fun n => n ∈ L) = sys.Needed roots := funext fun n => propext (hL n)
  have hC : sys.Closed (· ∈ L) := by
    rw [hpred]
    exact sys.closed_needed hsys roots
  have hvL : Valid sys (· ∈ L) s := by
    rw [hpred]
    exact hv
  let bound := L.length + (L.length - s.batched) + (L.length - s.nodes.length) + 1
  have hend : (Analysis.run sys bound s).value ≠ .exhausted :=
    hvL.run_ne_exhausted hC hsys (Nat.lt_succ_self _)
  exact ⟨bound, hend, fun fuel hle => run_mono hle hend⟩

/-- A run that is not cancelled ends if finitely many nodes are needed, and with enough fuel its
outcome does not depend on the fuel. -/
theorem History.exists_finished (hsys : sys.NodeByNode) (h : History sys roots s)
    (hfin : { n | sys.Needed roots n }.Finite)
    (hgo : ∀ fuel s', (run sys fuel s).value ≠ .cancelled s') :
    ∃ s' bound, ∀ fuel, bound ≤ fuel → (run sys fuel s).value = .finished s' := by
  obtain ⟨bound, hend, hbound⟩ := (h.valid hsys).1.exists_bound hsys hfin
  cases ho : (run sys bound s).value with
  | finished s' =>
    refine ⟨s', bound, fun fuel hle => ?_⟩
    rw [hbound fuel hle, ho]
  | cancelled s' => exact absurd ho (hgo bound s')
  | exhausted => exact absurd ho hend

/-- Let searches never fail and work node by node.  After any history of added roots and runs, a run
that is not cancelled ends if finitely many nodes are needed, and then exactly these are marked.  The
marked set is the same for every other history with the same roots, whichever nodes are deferred and
however the work is split into runs. -/
theorem History.run_marks_needed (hsys : sys.NodeByNode)
    (hsearch : ∀ n l, ∃ found, (sys.search n l).value = .ok found) (h : History sys roots s)
    (hfin : { n | sys.Needed roots n }.Finite)
    (hgo : ∀ fuel s', (run sys fuel s).value ≠ .cancelled s') :
    ∃ s' bound, (∀ fuel, bound ≤ fuel → (run sys fuel s).value = .finished s') ∧
      (∀ n, s'.graph.isMarked n = true ↔ sys.Needed roots n) ∧
      ∀ (deferred stops : N → Bool) (roots₂ : List N) (s₂ s₂' : Analysis N ε) (fuel₂ : Nat),
        (∀ r, r ∈ roots₂ ↔ r ∈ roots) →
        History { sys with isDeferred := deferred, requestsStop := stops } roots₂ s₂ →
        (run { sys with isDeferred := deferred, requestsStop := stops } fuel₂ s₂).value =
          .finished s₂' →
        ∀ n, s₂'.graph.isMarked n = s'.graph.isMarked n := by
  obtain ⟨s', bound, hrun⟩ := h.exists_finished hsys hfin hgo
  have hmarked : ∀ n, s'.graph.isMarked n = true ↔ sys.Needed roots n := fun n =>
    (s'.isMarked_iff n).trans (h.mem_nodes_iff hsys hsearch (hrun bound (Nat.le_refl _)) n)
  refine ⟨s', bound, hrun, hmarked, ?_⟩
  intro deferred stops roots₂ s₂ s₂' fuel₂ hroots h₂ hrun₂ n
  have hsys₂ : { sys with isDeferred := deferred, requestsStop := stops }.NodeByNode :=
    ⟨hsys.answers, hsys.mem_iff⟩
  have hneeded : sys.Needed roots₂ n ↔ sys.Needed roots n :=
    ⟨fun hn => hn.mono fun r hr => (hroots r).1 hr, fun hn => hn.mono fun r hr => (hroots r).2 hr⟩
  rw [Bool.eq_iff_iff, hmarked n, s₂'.isMarked_iff n, h₂.mem_nodes_iff hsys₂ hsearch hrun₂ n,
    NodeSystem.needed_iff_of_treatment, hneeded]

/-- A system in which node 0 leads to node 1 at once and to node 3 under the condition 2.  Node 2 is
found by the dynamic node 1, node 3 fails, and infinitely many nodes are never reached. -/
def branching : NodeSystem Nat String (Array Unit) where
  expand n := pure <| match n with
    | 0 => .ok { edges := [⟨1, "edge"⟩], conditional := [⟨3, 2, "if 2"⟩, ⟨4, 5, "if 5"⟩] }
    | 1 => .ok {}
    | 2 => .ok {}
    | 3 => .error "no body"
    | n + 4 => .ok { edges := [⟨n + 5, "next"⟩] }
  search n l := pure (.ok (l.flatMap fun m => if n = 1 ∧ m = 0 then [⟨2, "found"⟩] else []))
  isDeferred n := n == 1
  isDynamic n := n == 1

/-- The searches of `branching` look at nodes one by one. -/
theorem nodeByNode_branching : branching.NodeByNode where
  answers _ _ _ := ⟨_, rfl⟩
  mem_iff := by
    intro n l found h e
    cases h
    simp [branching]

/-- The first four nodes of `branching` lead to each other only. -/
theorem closed_branching : branching.Closed (· ∈ [0, 1, 2, 3]) where
  edge := by
    intro n x hn hx e he
    simp only [List.mem_cons, List.not_mem_nil, or_false] at hn
    rcases hn with rfl | rfl | rfl | rfl <;> cases hx <;> simp_all
  conditional := by
    intro n x hn hx e he hc
    simp only [List.mem_cons, List.not_mem_nil, or_false] at hn
    rcases hn with rfl | rfl | rfl | rfl <;> cases hx <;> simp_all
    rcases he with rfl | rfl <;> simp_all
  dynamic := by
    intro n x _ _ _ l found _ hfound e he
    cases hfound
    obtain ⟨m, -, he⟩ := List.mem_flatMap.1 he
    split at he <;> simp_all

/-- Exactly the first four nodes of `branching` are needed. -/
theorem needed_branching (n : Nat) : branching.Needed [0] n ↔ n ∈ [0, 1, 2, 3] := by
  constructor
  · intro h
    exact h.of_closed closed_branching (by simp)
  · have h0 : branching.Needed [0] 0 := .root (by simp)
    have h1 : branching.Needed [0] 1 := .edge h0 rfl (List.mem_singleton.2 rfl)
    have h2 : branching.Needed [0] 2 :=
      .dynamic h1 rfl rfl h0 rfl (List.mem_singleton.2 rfl)
    have h3 : branching.Needed [0] 3 :=
      .conditional h0 rfl List.mem_cons_self h2
    intro hn
    simp only [List.mem_cons, List.not_mem_nil, or_false] at hn
    rcases hn with rfl | rfl | rfl | rfl <;> assumption

/-- Adding the root is a history of `branching`. -/
theorem history_branching :
    History branching [0] (({} : Analysis Nat String).addRoot branching 0 "start") :=
  .addRoot 0 "start" .fresh

/-- Finitely many nodes of `branching` are needed. -/
theorem finite_needed_branching : { n | branching.Needed [0] n }.Finite := by
  simp only [needed_branching]
  exact List.finite_toSet _

/-- No node of `branching` asks to stop, so its runs are not cancelled. -/
theorem run_branching_ne_cancelled (fuel : Nat) (s : Analysis Nat String) :
    (run branching fuel (({} : Analysis Nat String).addRoot branching 0 "start")).value ≠
      .cancelled s := by
  have hvalid := (history_branching.valid nodeByNode_branching).1
  exact hvalid.run_ne_cancelled (branching.closed_needed nodeByNode_branching _)
    nodeByNode_branching fuel (mark_extends branching {} 0 _).heedsStop

/-- With enough fuel, a run of `branching` ends and has marked the first four nodes. -/
theorem exists_finished_branching : ∃ s fuel,
    (run branching fuel (({} : Analysis Nat String).addRoot branching 0 "start")).value =
      .finished s ∧ ∀ n, n ∈ s.nodes ↔ n ∈ [0, 1, 2, 3] := by
  obtain ⟨s, fuel, hrun⟩ := history_branching.exists_finished nodeByNode_branching
    finite_needed_branching run_branching_ne_cancelled
  have hfinished := hrun fuel (Nat.le_refl _)
  refine ⟨s, fuel, hfinished, fun n => ?_⟩
  rw [history_branching.mem_nodes_iff nodeByNode_branching (fun _ _ => ⟨_, rfl⟩) hfinished,
    needed_branching]

/-- The deferred dynamic node, the released edge and the failing node of `branching` are all reached
from its root, and nothing else is. -/
theorem run_marks_needed_branching :
    ∃ s' bound, (∀ fuel, bound ≤ fuel →
        (run branching fuel (({} : Analysis Nat String).addRoot branching 0 "start")).value =
          .finished s') ∧
      ∀ n, s'.graph.isMarked n = true ↔ n ∈ [0, 1, 2, 3] := by
  obtain ⟨s', bound, hrun, hmarked, -⟩ := history_branching.run_marks_needed nodeByNode_branching
    (fun _ _ => ⟨_, rfl⟩) finite_needed_branching run_branching_ne_cancelled
  refine ⟨s', bound, hrun, fun n => ?_⟩
  rw [hmarked n, needed_branching]

end Analysis

end AheadOfTime.Marking
