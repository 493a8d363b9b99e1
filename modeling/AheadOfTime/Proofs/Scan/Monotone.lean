import AheadOfTime.Proofs.Scan.Overrides
import AheadOfTime.Proofs.Scan.Termination

/-!
# More roots mark more

If a scan succeeds, so does a scan from some of its roots, and it marks nothing else.  The marked
nodes of the larger scan are a closed set that contains the roots of the smaller one, so the smaller
scan stays within it.  Hence it ends, whatever fails in it has failed in the larger scan too, and
what was not decisive there is not decisive here.
-/

set_option autoImplicit false

namespace AheadOfTime

open Marking

namespace Setting

variable {S : Setting} {roots roots' : List Root}

/-! ## Roots that can be added -/

/-- Roots can be added exactly if those that must not fail have their nodes. -/
theorem exists_addRoots_iff (start : Start) :
    (∃ start', outcome (roots.foldlM S.addRoot start) = .ok start') ↔
      ∀ r ∈ roots, r.required = true → ∃ nodes, outcome (S.rootNodes r.kind) = .ok nodes := by
  induction roots generalizing start with
  | nil => exact ⟨fun _ => List.forall_mem_nil _, fun _ => ⟨start, rfl⟩⟩
  | cons root roots ih =>
    rw [List.foldlM_cons, outcome_bind, outcome_addRoot, List.forall_mem_cons]
    cases hroot : outcome (S.rootNodes root.kind) with
    | ok nodes =>
      rw [ok_bind, ih]
      exact ⟨fun h => ⟨fun _ => ⟨nodes, rfl⟩, h⟩, fun h => h.2⟩
    | error e =>
      cases hrequired : root.required with
      | true => simp
      | false =>
        dsimp only
        rw [if_neg Bool.false_ne_true, ok_bind, ih]
        simp

/-- A node that must not fail, because a root must not. -/
def RequiredNode (S : Setting) (roots : List Root) (n : Node) : Prop :=
  ∃ r ∈ roots, r.required = true ∧ ∃ nodes, outcome (S.rootNodes r.kind) = .ok nodes ∧
    ∃ k ∈ nodes, n ∈ (S.requiredNodes k).value

/-- After roots were added, those nodes are required that were before or are required by the
roots. -/
theorem mem_required_addRoots {start start' : Start}
    (h : outcome (roots.foldlM S.addRoot start) = .ok start') (n : Node) :
    n ∈ start'.required ↔ n ∈ start.required ∨ S.RequiredNode roots n := by
  unfold RequiredNode
  induction roots generalizing start with
  | nil =>
    cases h
    simp
  | cons root roots ih =>
    rw [List.foldlM_cons, outcome_bind] at h
    obtain ⟨mid, hmid, h⟩ := bind_eq_ok.1 h
    rw [ih h]
    rw [outcome_addRoot] at hmid
    cases hroot : outcome (S.rootNodes root.kind) with
    | ok nodes =>
      rw [hroot] at hmid
      cases hmid
      cases hrequired : root.required with
      | true => simp [hrequired, hroot, or_assoc]
      | false => simp [hrequired]
    | error e =>
      rw [hroot] at hmid
      dsimp only at hmid
      split at hmid
      · cases hmid
      · next hrequired =>
        cases hmid
        simp [hrequired]

/-- Adding roots changes nothing about stopping. -/
theorem addRoots_steady {start start' : Start}
    (h : outcome (roots.foldlM S.addRoot start) = .ok start') :
    start.analysis.Steady start'.analysis := by
  induction roots generalizing start with
  | nil =>
    cases h
    exact .refl _
  | cons root roots ih =>
    rw [List.foldlM_cons, outcome_bind] at h
    obtain ⟨mid, hmid, h⟩ := bind_eq_ok.1 h
    refine Analysis.Steady.trans ?_ (ih h)
    rw [outcome_addRoot] at hmid
    split at hmid
    · split at hmid
      · cases hmid
      · cases hmid
        exact .refl _
    · cases hmid
      exact Analysis.steady_foldl (fun s n => Analysis.mark_steady S.system s n _) _ _

/-! ## What a successful scan has met -/

/-- A scan that succeeds was not asked to stop. -/
theorem not_stopped_of_analyze {fuel : Nat} {cancelled : Option Bool} {g : NodeGraph}
    (h : outcome (S.analyze fuel roots cancelled) = .ok (some g)) : cancelled ≠ some true := by
  rintro rfl
  obtain ⟨start, a, hstart, hrun, -, -⟩ := exists_run_of_analyze h
  obtain ⟨hheeds, hasked⟩ := addRoots_steady hstart
  cases fuel with
  | zero => cases hrun
  | succ fuel =>
    rw [Analysis.value_run_succ, hheeds, hasked] at hrun
    cases hrun

/-- In a scan that succeeds, a node that fails is not required, and it fails for want of a body
only. -/
theorem spared_of_analyze {fuel : Nat} {cancelled : Option Bool} {g : NodeGraph}
    (h : outcome (S.analyze fuel roots cancelled) = .ok (some g)) {n : Node} {e : Diagnostic}
    (hn : g.isMarked n = true) (he : outcome (S.expand n) = .error e) :
    e.isFatal = false ∧ ¬ S.RequiredNode roots n := by
  obtain ⟨start, a, hstart, hrun, rfl, hdecisive⟩ := exists_run_of_analyze h
  have hall := S.system.closed_true
  have hv := (valid_addRoots hall hstart (valid_initialStart _ cancelled) fun _ _ => trivial).1
  have hleads := hv.run hall S.nodeByNode_system fuel
  rw [hrun] at hleads
  obtain ⟨f, hf, rfl, rfl⟩ := hleads.2.2.failed ((a.isMarked_iff n).1 hn) he
  have hspared := hdecisive f hf
  rw [isDecisive, Bool.or_eq_false_iff, List.contains_eq_mem, decide_eq_false_iff_not] at hspared
  refine ⟨hspared.1, fun hrequired => hspared.2 ?_⟩
  exact (mem_required_addRoots hstart f.node).2 (.inr hrequired)

/-- Within the nodes that a successful scan marks, every search has an answer. -/
theorem FixedPoint.exists_search {g : NodeGraph} (h : S.FixedPoint roots g) {n : Node}
    {l : List Node} (hn : g.isMarked n = true) (hl : ∀ k ∈ l, g.isMarked k = true) :
    ∃ found, outcome (S.search n l) = .ok found := by
  cases hsearch : outcome (S.search n l) with
  | ok found => exact ⟨found, rfl⟩
  | error e =>
    obtain ⟨k, hk, herror⟩ := S.search_eq_error hsearch
    cases n with
    | slot m =>
      obtain ⟨found, hfound, -⟩ := h.search hn rfl (hl k hk)
      rw [hfound] at herror
      cases herror
    | _ => cases herror

/-! ## Fewer roots -/

/-- Within the nodes that a successful scan marks, a scan from some of its roots meets no failure that
it may not pass over. -/
theorem find?_isDecisive_of_subset {fuel' : Nat} {cancelled : Option Bool} {g' : NodeGraph}
    (h' : outcome (S.analyze fuel' roots' cancelled) = .ok (some g'))
    (hsub : ∀ r ∈ roots, r ∈ roots') {start : Start}
    (hstart : outcome (roots.foldlM S.addRoot (initialStart cancelled)) = .ok start)
    {a : Analysis Node Diagnostic} (ha : a.Valid S.system (g'.isMarked · = true)) :
    a.graph.failures.find? (isDecisive start.required) = none := by
  rw [Array.find?_eq_none]
  intro f hf hdecisive
  obtain ⟨hnode, hcause⟩ := ha.sound.failures f (Array.mem_toList_iff.2 hf)
  have hmarked := ha.sound.within f.node (List.mem_of_getElem? hnode)
  rcases hcause with herror | ⟨l, hl, herror⟩
  · obtain ⟨hfatal, hrequired⟩ := spared_of_analyze h' hmarked herror
    rw [isDecisive, hfatal, Bool.false_or, List.contains_iff_mem,
      mem_required_addRoots hstart] at hdecisive
    rcases hdecisive with hnil | ⟨r, hr, hrest⟩
    · cases hnil
    · exact hrequired ⟨r, hsub r hr, hrest⟩
  · obtain ⟨found, hfound⟩ := (fixedPoint_of_analyze h').exists_search hmarked hl
    rw [value_search_system, hfound] at herror
    cases herror

/-- A scan from some of the roots of a successful one ends with success. -/
theorem exists_analyze_of_subset {fuel' : Nat} {cancelled : Option Bool} {g' : NodeGraph}
    (h' : outcome (S.analyze fuel' roots' cancelled) = .ok (some g'))
    (hsub : ∀ r ∈ roots, r ∈ roots') :
    ∃ bound g, ∀ fuel, bound ≤ fuel → outcome (S.analyze fuel roots cancelled) = .ok (some g) := by
  have hfixed := fixedPoint_of_analyze h'
  obtain ⟨start', a', hstart', -, rfl, -⟩ := exists_run_of_analyze h'
  have hroots : ∀ n, S.RootNode roots n → a'.graph.isMarked n = true := by
    rintro n ⟨r, hr, hn⟩
    exact hfixed.root ⟨r, hsub r hr, hn⟩
  -- the roots lead only to what the larger scan has marked, and that is finite
  have hfin : { n | S.system.Needed (S.startNodes roots) n }.Finite := by
    refine (List.finite_toSet a'.nodes).subset fun n hn => (a'.isMarked_iff n).1 ?_
    exact hn.of_closed hfixed.closed fun k hk => hroots k (mem_startNodes.1 hk)
  obtain ⟨bound, hend, hbound⟩ := exists_bound_analyze hfin cancelled
  obtain ⟨start, hstart⟩ := (exists_addRoots_iff (initialStart cancelled)).2 fun r hr =>
    (exists_addRoots_iff (initialStart cancelled)).1 ⟨start', hstart'⟩ r (hsub r hr)
  have hv := (valid_addRoots hfixed.closed hstart (valid_initialStart _ cancelled) hroots).1
  have hgo : ∀ s, (start.analysis.run S.system bound).value ≠ .cancelled s := by
    obtain ⟨hheeds, hasked⟩ := addRoots_steady hstart
    refine fun s => Analysis.run_ne_cancelled_of_quiet (fun _ => rfl) bound ?_
    rw [hheeds, hasked]
    have hcancelled := not_stopped_of_analyze h'
    rcases cancelled with - | - | -
    · rfl
    · rfl
    · exact absurd rfl hcancelled
  have hleads := hv.run hfixed.closed S.nodeByNode_system bound
  have hanalyze := outcome_analyze (S := S) bound roots cancelled
  rw [hstart, ok_bind] at hanalyze
  cases hrun : (start.analysis.run S.system bound).value with
  | exhausted =>
    rw [hrun] at hanalyze
    exact absurd hanalyze hend
  | cancelled s => exact absurd hrun (hgo s)
  | finished a =>
    rw [hrun] at hanalyze hleads
    obtain ⟨hva, -, -⟩ := hleads
    have hspared := find?_isDecisive_of_subset h' hsub hstart hva
    dsimp only at hanalyze
    rw [hspared] at hanalyze
    exact ⟨bound, a.graph, fun fuel hle => (hbound fuel hle).trans hanalyze⟩

end Setting

/-- Scanning is monotone in the roots: if a scan succeeds, so does every scan from some of its roots,
in any order and number and whatever the catalog holds, and it marks nothing that the larger scan has
not marked. -/
theorem Program.scan_mono {P : Program} {options : Options} {roots roots' : List Root}
    (hsub : ∀ r ∈ roots, r ∈ roots') {cancelled : Option Bool} {fuel' : Nat} {catalog' : Catalog}
    {scan' : Scan}
    (h' : ((P.scan fuel' options roots' cancelled).run.run catalog').1 = .ok (some scan')) :
    ∃ bound scan, (∀ fuel, bound ≤ fuel → ∀ catalog : Catalog,
        ((P.scan fuel options roots cancelled).run.run catalog).1 = .ok (some scan)) ∧
      ∀ n, scan.graph.isMarked n = true → scan'.graph.isMarked n = true := by
  rw [Recorded.fst_run] at h'
  obtain ⟨hgraph', -⟩ := scan_eq_ok_iff.1 h'
  obtain ⟨bound, g, hanalyze⟩ := Setting.exists_analyze_of_subset hgraph' hsub
  refine ⟨bound, ⟨g, roots⟩, fun fuel hle catalog => ?_, fun n hn => ?_⟩
  · rw [Recorded.fst_run]
    exact scan_eq_ok_iff.2 ⟨hanalyze fuel hle, rfl⟩
  · have hfixed' := Setting.fixedPoint_of_analyze hgraph'
    have hfixed := Setting.fixedPoint_of_analyze (hanalyze bound (Nat.le_refl _))
    refine hfixed.least hfixed'.closed ?_ hn
    rintro k ⟨r, hr, hk⟩
    exact hfixed'.root ⟨r, hsub r hr, hk⟩

namespace Drawing

/-- Nothing but the entry point, twice. -/
def entryRoots : List Root :=
  List.replicate 2 { kind := .method showSquare.method, reason := "entry point" }

/-- Squares exist only in the larger scan, and only there is the code needed that draws them. -/
theorem scan_mono_entryRoots :
    (∀ r ∈ entryRoots, r ∈ squareRoots) ∧
    ∃ fuel' scan', ((program.scan fuel' {} squareRoots none).run.run .initial).1 = .ok (some scan') ∧
      scan'.graph.isMarked (.constructed (.decl square)) = true ∧
      ∃ bound scan, (∀ fuel, bound ≤ fuel → ∀ catalog : Catalog,
          ((program.scan fuel {} entryRoots none).run.run catalog).1 = .ok (some scan)) ∧
        ∀ n, scan.graph.isMarked n = true → scan'.graph.isMarked n = true := by
  have hsub : ∀ r ∈ entryRoots, r ∈ squareRoots := by
    intro r hr
    rw [List.eq_of_mem_replicate hr]
    exact List.mem_cons_self
  obtain ⟨fuel', scan', hscan, -, hobjects, -⟩ := exists_scan_square
  have hrun : ((program.scan fuel' {} squareRoots none).run.run .initial).1 = .ok (some scan') := by
    rw [Recorded.fst_run]
    exact hscan
  exact ⟨hsub, fuel', scan', hrun, hobjects, Program.scan_mono hsub hrun⟩

end Drawing

end AheadOfTime
