import AheadOfTime.Proofs.Marking.Growth
import AheadOfTime.Proofs.Recorded
import Mathlib.Data.List.Perm.Subperm

/-!
# The rounds of a run

Between two rounds, the cursors of a state say what has been done: nodes before `expanded` and
`batched` have been expanded and what came out of it is taken care of, and dynamic nodes before
`shown` have searched the nodes before it.  `Progress` states this, `drain`, a batch of deferred
nodes and a round of searches keep it, and so a run does.  A run that is finished has moved all
cursors to the end, which leaves a marked set that nothing leads out of: `Complete`.  Only a run that
is asked to stop ends before.
-/

set_option autoImplicit false

namespace AheadOfTime.Marking

namespace NodeSystem

variable {N ε σ ω : Type} [Recorder σ ω] [Inhabited σ]

/-- Searches work node by node: a search over a list is answered only if it is over each of the
elements, and it finds the edges that are found over the elements. -/
structure NodeByNode (sys : NodeSystem N ε σ) : Prop where
  answers : ∀ {n : N} {l : List N} {found : List (Edge N)}, (sys.search n l).value = .ok found →
    ∀ m ∈ l, ∃ one, (sys.search n [m]).value = .ok one
  mem_iff : ∀ {n : N} {l : List N} {found : List (Edge N)}, (sys.search n l).value = .ok found →
    ∀ e, e ∈ found ↔ ∃ m ∈ l, ∃ one, (sys.search n [m]).value = .ok one ∧ e ∈ one

/-- If searches work node by node, a set is closed under searches if it is closed under those over
one node. -/
theorem NodeByNode.closed {sys : NodeSystem N ε σ} {C : N → Prop} (hsys : sys.NodeByNode)
    (hedge : ∀ {n : N} {x : Expansion N}, C n → (sys.expand n).value = .ok x →
      ∀ e ∈ x.edges, C e.target)
    (hconditional : ∀ {n : N} {x : Expansion N}, C n → (sys.expand n).value = .ok x →
      ∀ e ∈ x.conditional, C e.condition → C e.target)
    (hdynamic : ∀ {n m : N} {x : Expansion N} {one : List (Edge N)}, C n →
      (sys.expand n).value = .ok x → sys.isDynamic n = true → C m →
      (sys.search n [m]).value = .ok one → ∀ e ∈ one, C e.target) : sys.Closed C where
  edge := hedge
  conditional := hconditional
  dynamic := by
    intro n x hn hx hd l found hl hfound e he
    obtain ⟨m, hm, one, hone, he⟩ := (hsys.mem_iff hfound e).1 he
    exact hdynamic hn hx hd (hl m hm) hone e he

end NodeSystem

namespace Analysis

variable {N ε σ ω : Type} [BEq N] [LawfulBEq N] [Hashable N] [Recorder σ ω] [Inhabited σ]

variable (sys : NodeSystem N ε σ)

/-- The edges that a node finds over another one lead to marked nodes. -/
def Found (s : Analysis N ε) (n m : N) : Prop :=
  ∃ one, (sys.search n [m]).value = .ok one ∧ ∀ e ∈ one, e.target ∈ s.nodes

/-- The position up to which nodes that are treated like `n` have been expanded. -/
def cursor (s : Analysis N ε) (n : N) : Nat :=
  if sys.isDeferred n then s.batched else s.expanded

/-- What the cursors of a state say has been done. -/
structure Progress (s : Analysis N ε) : Prop where
  expanded_le : s.expanded ≤ s.nodes.length
  batched_le : s.batched ≤ s.nodes.length
  shown_le : s.shown ≤ s.nodes.length
  handled : ∀ {i : Nat} {n : N}, s.nodes[i]? = some n → i < s.cursor sys n →
    s.Handled i n (sys.expand n).value
  searched : ∀ {i : Nat} {n : N}, s.nodes[i]? = some n → sys.isDynamic n = true → i < s.shown →
    s.graph.hasFailed i = true ∨ ∀ m ∈ s.nodes.take s.shown, s.Found sys n m

/-- All marked nodes have been expanded. -/
def Expanded (s : Analysis N ε) : Prop :=
  ∀ {i : Nat} {n : N}, s.nodes[i]? = some n → s.Handled i n (sys.expand n).value

/-- A state between two rounds. -/
structure Valid (C : N → Prop) (s : Analysis N ε) : Prop where
  sound : Sound sys C s
  progress : Progress sys s

variable {sys} {C D : N → Prop} {s s' : Analysis N ε}

/-- What was found and marked stays so. -/
theorem Found.mono {n m : N} (h : s.Found sys n m) (hg : s.Grows s') : s'.Found sys n m := by
  obtain ⟨one, hone, htargets⟩ := h
  exact ⟨one, hone, fun e he => hg.mem (htargets e he)⟩

/-- No cursor is past the marked nodes. -/
theorem Progress.cursor_le (h : Progress sys s) (n : N) : s.cursor sys n ≤ s.nodes.length := by
  unfold cursor
  split
  · exact h.batched_le
  · exact h.expanded_le

/-- When a state grows, the nodes that were taken care of still are. -/
theorem Progress.handled_of_grows (h : Progress sys s) (hg : s.Grows s')
    (hnew : ∀ {i : Nat} {n : N}, s'.nodes[i]? = some n → s.cursor sys n ≤ i →
      i < s'.cursor sys n → s'.Handled i n (sys.expand n).value)
    {i : Nat} {n : N} (hn : s'.nodes[i]? = some n) (hi : i < s'.cursor sys n) :
    s'.Handled i n (sys.expand n).value := by
  by_cases hold : i < s.cursor sys n
  · have hlt : i < s.nodes.length := Nat.lt_of_lt_of_le hold (h.cursor_le n)
    exact (h.handled (hg.getElem?_of_lt hn hlt) hold).mono hg
  · exact hnew hn (Nat.le_of_not_lt hold) hi

/-- A state that grows makes progress if the nodes that its cursors passed are taken care of. -/
theorem Progress.advance (h : Progress sys s) (hg : s.Grows s')
    (hexpanded : s'.expanded ≤ s'.nodes.length) (hbatched : s'.batched ≤ s'.nodes.length)
    (hshown : s'.shown = s.shown)
    (hnew : ∀ {i : Nat} {n : N}, s'.nodes[i]? = some n → s.cursor sys n ≤ i →
      i < s'.cursor sys n → s'.Handled i n (sys.expand n).value) : Progress sys s' where
  expanded_le := hexpanded
  batched_le := hbatched
  shown_le := hshown ▸ Nat.le_trans h.shown_le hg.length_le
  handled := h.handled_of_grows hg hnew
  searched := by
    intro i n hn hd hi
    rw [hshown] at hi ⊢
    have hlt : i < s.nodes.length := Nat.lt_of_lt_of_le hi h.shown_le
    rcases h.searched (hg.getElem?_of_lt hn hlt) hd hi with hf | hall
    · exact .inl (hg.hasFailed hf)
    · refine .inr fun m hm => (hall m ?_).mono hg
      obtain ⟨rest, hrest⟩ := hg.nodes
      rwa [← hrest, List.take_append_of_le_length h.shown_le] at hm

omit [Inhabited σ] in
/-- What moves no cursor keeps the position up to which nodes have been expanded. -/
theorem Extends.cursor_eq (he : s.Extends s') (n : N) : s'.cursor sys n = s.cursor sys n := by
  unfold cursor
  rw [he.batched, he.expanded]

/-- What has been done stays done while no cursor moves. -/
theorem Progress.mono (h : Progress sys s) (he : s.Extends s') : Progress sys s' := by
  refine h.advance he.toGrows ?_ ?_ he.shown ?_
  · exact he.expanded ▸ Nat.le_trans h.expanded_le he.length_le
  · exact he.batched ▸ Nat.le_trans h.batched_le he.length_le
  · intro i n _ hold hi
    rw [he.cursor_eq] at hi
    omega

/-- A state between rounds is one for every larger set. -/
theorem Valid.mono (h : Valid sys C s) (hCD : ∀ n, C n → D n) : Valid sys D s :=
  ⟨h.sound.mono hCD, h.progress⟩

/-- Counting does not change a state between rounds. -/
theorem Valid.count (h : Valid sys C s) (f : Stats → Stats) : Valid sys C (s.count f) :=
  ⟨h.sound.count f, h.progress.mono (count_extends s f)⟩

/-- A list that contains the marked nodes is at least as long. -/
theorem Valid.length_le {L : List N} (h : Valid sys (· ∈ L) s) : s.nodes.length ≤ L.length :=
  (List.Nodup.subperm s.nodup_nodes h.sound.within).length_le

/-- A node that has not failed was expanded with success. -/
theorem Expanded.exists_ok (h : Expanded sys s) {i : Nat} {n : N} (hn : s.nodes[i]? = some n)
    (hi : s.graph.hasFailed i = false) : ∃ x, (sys.expand n).value = .ok x := by
  have hh := h hn
  cases hx : (sys.expand n).value with
  | ok x => exact ⟨x, rfl⟩
  | error error =>
    rw [hx] at hh
    have : s.graph.hasFailed i = true := s.hasFailed_iff i |>.2 ⟨_, hh, rfl⟩
    simp [this] at hi

/-! ## Expanding nodes one after the other -/

/-- A node is expanded after its request to stop, if it has one, was taken note of. -/
theorem value_expandNode (s : Analysis N ε) (id : Nat) (n : N) :
    (s.expandNode sys id n).value =
      { s with stopRequested := s.stopRequested || sys.requestsStop n }.apply sys id
        (sys.expand n).value := by
  simp [expandNode]

/-- Expanding a marked node extends the state and takes care of what came out. -/
theorem expandNode_spec (sys : NodeSystem N ε σ) (s : Analysis N ε) {id : Nat} {n : N}
    (hn : s.nodes[id]? = some n) :
    s.Extends (s.expandNode sys id n).value ∧
      (s.expandNode sys id n).value.Handled id n (sys.expand n).value := by
  let asked : Analysis N ε :=
    { s with stopRequested := s.stopRequested || sys.requestsStop n }
  have hasked : s.Extends asked :=
    ⟨⟨List.prefix_rfl, List.prefix_rfl, fun _ _ h => h⟩, rfl, rfl, rfl, rfl⟩
  rw [value_expandNode]
  exact ⟨hasked.trans (apply_extends sys asked id _), handled_apply sys asked hn _⟩

/-- Expanding a marked node leaves everything with a reason. -/
theorem Sound.expandNode (h : Sound sys C s) (hC : sys.Closed C) {id : Nat} {n : N}
    (hn : s.nodes[id]? = some n) : Sound sys C (s.expandNode sys id n).value := by
  rw [value_expandNode]
  have h' : Sound sys C { s with stopRequested := s.stopRequested || sys.requestsStop n } :=
    ⟨h.within, h.waiting, h.dynamic, h.failures⟩
  exact h'.apply hC hn

/-- The state in which the cursor of the drain has passed one more node. -/
theorem grows_pass (s : Analysis N ε) : s.Grows { s with expanded := s.expanded + 1 } :=
  ⟨List.prefix_rfl, List.prefix_rfl, fun _ _ h => h⟩

/-- Passing over a deferred node is progress. -/
theorem Valid.skip (h : Valid sys C s) {n : N} (hn : s.nodes[s.expanded]? = some n)
    (hd : sys.isDeferred n = true) : Valid sys C { s with expanded := s.expanded + 1 } := by
  refine ⟨⟨h.sound.within, h.sound.waiting, h.sound.dynamic, h.sound.failures⟩, ?_⟩
  refine h.progress.advance s.grows_pass ?_ h.progress.batched_le rfl ?_
  · exact (List.getElem?_eq_some_iff.1 hn).1
  · intro i m hm hold hi
    have hm : s.nodes[i]? = some m := hm
    unfold cursor at hold hi
    split at hi
    · next hdm =>
      rw [if_pos hdm] at hold
      exact absurd hi (Nat.not_lt.2 hold)
    · next hdm =>
      -- the only node that was passed is deferred
      rw [if_neg hdm] at hold
      have hie : i = s.expanded := Nat.le_antisymm (Nat.le_of_lt_succ hi) hold
      rw [hie, hn] at hm
      cases hm
      exact absurd hd hdm

/-- Expanding the next node is progress. -/
theorem Valid.expandNext (h : Valid sys C s) (hC : sys.Closed C) {n : N}
    (hn : s.nodes[s.expanded]? = some n) :
    Valid sys C ({ s with expanded := s.expanded + 1 }.expandNode sys s.expanded n).value := by
  have hlt : s.expanded < s.nodes.length := (List.getElem?_eq_some_iff.1 hn).1
  have hsound : Sound sys C { s with expanded := s.expanded + 1 } :=
    ⟨h.sound.within, h.sound.waiting, h.sound.dynamic, h.sound.failures⟩
  obtain ⟨hext, hnode⟩ :=
    expandNode_spec sys { s with expanded := s.expanded + 1 } hn
  have hg := s.grows_pass.trans hext.toGrows
  refine ⟨hsound.expandNode hC hn, h.progress.advance hg ?_ ?_ hext.shown ?_⟩
  · rw [hext.expanded]
    exact Nat.le_trans hlt hg.length_le
  · rw [hext.batched]
    exact Nat.le_trans h.progress.batched_le hg.length_le
  · intro i m hm hold hi
    have hie : i = s.expanded := by
      unfold cursor at hold hi
      rw [hext.batched, hext.expanded] at hi
      split at hi
      · next hdm =>
        rw [if_pos hdm] at hold
        exact absurd hi (Nat.not_lt.2 hold)
      · next hdm =>
        rw [if_neg hdm] at hold
        exact Nat.le_antisymm (Nat.le_of_lt_succ hi) hold
    rw [hie] at hm ⊢
    rw [hg.getElem? hn] at hm
    cases hm
    exact hnode

/-- The state after the drain has passed the next node, `n`: it expands the node unless it is
deferred. -/
def passNext (sys : NodeSystem N ε σ) (s : Analysis N ε) (n : N) : Analysis N ε :=
  if sys.isDeferred n then { s with expanded := s.expanded + 1 }
  else ({ s with expanded := s.expanded + 1 }.expandNode sys s.expanded n).value

/-- Passing the next node moves one cursor by one and takes nothing away. -/
theorem passNext_spec (sys : NodeSystem N ε σ) (s : Analysis N ε) {n : N}
    (hn : s.nodes[s.expanded]? = some n) :
    s.Grows (s.passNext sys n) ∧ (s.passNext sys n).expanded = s.expanded + 1 ∧
      (s.passNext sys n).batched = s.batched ∧
      (s.passNext sys n).heedsStop = s.heedsStop := by
  unfold passNext
  split
  · exact ⟨s.grows_pass, rfl, rfl, rfl⟩
  · have hext := (expandNode_spec sys { s with expanded := s.expanded + 1 } hn).1
    exact ⟨s.grows_pass.trans hext.toGrows, hext.expanded, hext.batched, hext.heedsStop⟩

/-- Passing the next node keeps a state valid. -/
theorem Valid.passNext (h : Valid sys C s) (hC : sys.Closed C) {n : N}
    (hn : s.nodes[s.expanded]? = some n) : Valid sys C (s.passNext sys n) := by
  unfold Analysis.passNext
  split
  · next hd => exact h.skip hn hd
  · exact h.expandNext hC hn

/-- If no node is left, draining changes nothing. -/
theorem value_drain_of_none (fuel : Nat) (hn : s.nodes[s.expanded]? = none) :
    (drain sys fuel s).value = some s := by
  rw [← s.get?_nodes] at hn
  unfold drain
  simp [hn]

/-- Without fuel, draining does not end while a node is left. -/
theorem value_drain_zero {n : N} (hn : s.nodes[s.expanded]? = some n) :
    (drain sys 0 s).value = none := by
  rw [← s.get?_nodes] at hn
  unfold drain
  simp [hn]

/-- Draining passes the next node and goes on. -/
theorem value_drain_succ (fuel : Nat) {n : N} (hn : s.nodes[s.expanded]? = some n) :
    (drain sys (fuel + 1) s).value = (drain sys fuel (s.passNext sys n)).value := by
  rw [← s.get?_nodes] at hn
  rw [drain, passNext]
  simp only [hn]
  split <;> simp

/-- Draining passes one node after the other, until none is left. -/
theorem drain_induction {motive : Analysis N ε → Prop}
    (hend : s'.nodes[s'.expanded]? = none → motive s')
    (hpass : ∀ {s : Analysis N ε} {n : N}, s.nodes[s.expanded]? = some n →
      motive (s.passNext sys n) → motive s) {fuel : Nat}
    (hdrain : (drain sys fuel s).value = some s') : motive s := by
  induction fuel generalizing s with
  | zero =>
    cases hn : s.nodes[s.expanded]? with
    | none =>
      rw [value_drain_of_none 0 hn] at hdrain
      have hs : s = s' := Option.some.inj hdrain
      exact hs ▸ hend (hs ▸ hn)
    | some n =>
      rw [value_drain_zero hn] at hdrain
      cases hdrain
  | succ fuel ih =>
    cases hn : s.nodes[s.expanded]? with
    | none =>
      rw [value_drain_of_none (fuel + 1) hn] at hdrain
      have hs : s = s' := Option.some.inj hdrain
      exact hs ▸ hend (hs ▸ hn)
    | some n =>
      rw [value_drain_succ fuel hn] at hdrain
      exact hpass hn (ih hdrain)

/-- Draining expands every node that is not deferred. -/
theorem Valid.drain (hC : sys.Closed C) {fuel : Nat} (h : Valid sys C s)
    (hrun : (drain sys fuel s).value = some s') :
    Valid sys C s' ∧ s.Grows s' ∧ s'.expanded = s'.nodes.length ∧ s'.batched = s.batched ∧
      s'.heedsStop = s.heedsStop := by
  refine drain_induction (motive := fun s => Valid sys C s → Valid sys C s' ∧ s.Grows s' ∧
    s'.expanded = s'.nodes.length ∧ s'.batched = s.batched ∧ s'.heedsStop = s.heedsStop)
    (fun hnone h => ?_) (fun hn ih h => ?_) hrun h
  · have hlen := List.getElem?_eq_none_iff.1 hnone
    exact ⟨h, .refl s', Nat.le_antisymm h.progress.expanded_le hlen, rfl, rfl⟩
  · obtain ⟨hg, -, hb, hh⟩ := passNext_spec sys _ hn
    obtain ⟨hv, hg', he, hb', hh'⟩ := ih (h.passNext hC hn)
    exact ⟨hv, hg.trans hg', he, hb'.trans hb, hh'.trans hh⟩

/-- Draining ends: the cursor passes one node at a time, and a closed list bounds their number. -/
theorem Valid.exists_drain {L : List N} (hC : sys.Closed (· ∈ L)) {fuel : Nat}
    (h : Valid sys (· ∈ L) s) (hfuel : L.length ≤ fuel + s.expanded) :
    ∃ s', (Analysis.drain sys fuel s).value = some s' := by
  induction fuel generalizing s with
  | zero =>
    have hlen : s.nodes.length ≤ L.length := h.length_le
    have hnone : s.nodes[s.expanded]? = none := List.getElem?_eq_none_iff.2 (by omega)
    exact ⟨s, value_drain_of_none 0 hnone⟩
  | succ fuel ih =>
    cases hn : s.nodes[s.expanded]? with
    | none => exact ⟨s, value_drain_of_none (fuel + 1) hn⟩
    | some n =>
      rw [value_drain_succ fuel hn]
      obtain ⟨-, he, -, -⟩ := passNext_spec sys s hn
      exact ih (h.passNext hC hn) (by omega)

/-! ## Expanding a batch of deferred nodes -/

omit [Inhabited σ] in
/-- The pending nodes are the deferred ones that no batch has had yet. -/
theorem mem_pending {i : Nat} {n : N} :
    (i, n) ∈ s.pending sys ↔
      s.nodes[i]? = some n ∧ s.batched ≤ i ∧ sys.isDeferred n = true := by
  unfold pending
  rw [since_eq_drop]
  simp only [List.mem_filterMap, Prod.exists, Option.ite_none_right_eq_some, Option.some.injEq,
    Prod.mk.injEq, List.mk_mem_zipIdx_iff_le_and_getElem?_sub]
  constructor
  · rintro ⟨m, j, ⟨hle, hm⟩, hd, rfl, rfl⟩
    rw [List.getElem?_drop, Nat.add_sub_cancel' hle] at hm
    exact ⟨hm, hle, hd⟩
  · rintro ⟨hn, hle, hd⟩
    refine ⟨n, i, ⟨hle, ?_⟩, hd, rfl, rfl⟩
    rw [List.getElem?_drop, Nat.add_sub_cancel' hle, hn]

/-- Expanding marked nodes one after the other takes care of all of them. -/
theorem expandAll_spec (hC : sys.Closed C) (h : Sound sys C s) (batch : List (Nat × N))
    (hbatch : ∀ p ∈ batch, s.nodes[p.1]? = some p.2) :
    let s' := batch.foldl (fun s p => (s.expandNode sys p.1 p.2).value) s
    Sound sys C s' ∧ s.Extends s' ∧ ∀ p ∈ batch, s'.Handled p.1 p.2 (sys.expand p.2).value := by
  induction batch generalizing s with
  | nil => exact ⟨h, .refl s, by simp⟩
  | cons p batch ih =>
    have hp : s.nodes[p.1]? = some p.2 := hbatch p List.mem_cons_self
    obtain ⟨hext, hhandled⟩ := expandNode_spec sys s hp
    obtain ⟨hs', hext', hall⟩ := ih (h.expandNode hC hp) fun q hq =>
      hext.getElem? (hbatch q (List.mem_cons_of_mem _ hq))
    refine ⟨hs', hext.trans hext', ?_⟩
    intro q hq
    rcases List.mem_cons.1 hq with rfl | hq
    · exact hhandled.mono hext'.toGrows
    · exact hall q hq

/-- Expanding the pending nodes moves the cursor of the deferred nodes to the end. -/
theorem Valid.expandBatch (h : Valid sys C s) (hC : sys.Closed C) :
    let s' := ({ s with batched := s.graph.size }.expandBatch sys (s.pending sys)).value
    Valid sys C s' ∧ s.Grows s' ∧ s'.batched = s.nodes.length ∧ s'.heedsStop = s.heedsStop := by
  let s₁ : Analysis N ε := { s with batched := s.graph.size }.count fun c =>
    { c with deferredBatches := c.deferredBatches + 1 }
  have hg₁ : s.Grows s₁ := ⟨List.prefix_rfl, List.prefix_rfl, fun _ _ h => h⟩
  have hs₁ : Sound sys C s₁ :=
    ⟨h.sound.within, h.sound.waiting, h.sound.dynamic, h.sound.failures⟩
  have hb₁ : s₁.batched = s.nodes.length := s.size_graph
  obtain ⟨hs', hext, hall⟩ := expandAll_spec hC hs₁ (s.pending sys) fun p hp =>
    (mem_pending.1 hp).1
  simp only [Analysis.expandBatch, Recorded.value_foldlM]
  have hg := hg₁.trans hext.toGrows
  refine ⟨⟨hs', h.progress.advance hg ?_ ?_ hext.shown ?_⟩, hg, hext.batched.trans hb₁,
    hext.heedsStop⟩
  · rw [hext.expanded]
    exact Nat.le_trans h.progress.expanded_le hg.length_le
  · rw [hext.batched, hb₁]
    exact hg.length_le
  · intro i n hn hold hi
    unfold cursor at hold hi
    split at hi
    · next hd =>
      rw [if_pos hd] at hold
      rw [hext.batched, hb₁] at hi
      exact hall (i, n) (mem_pending.2 ⟨hg.getElem?_of_lt hn hi, hold, hd⟩)
    · next hd =>
      rw [if_neg hd] at hold
      rw [hext.expanded] at hi
      exact absurd hi (Nat.not_lt.2 hold)

/-! ## Showing dynamic nodes what was marked -/

/-- Records the failure of a search. -/
def recordAnswer (s : Analysis N ε) (a : Nat × Option (Except ε (List (Edge N)))) :
    Analysis N ε :=
  match a.2 with
  | some (.error error) => s.fail a.1 error
  | _ => s

/-- Follows what a search found. -/
def followAnswer (sys : NodeSystem N ε σ) (s : Analysis N ε)
    (a : Nat × Option (Except ε (List (Edge N)))) : Analysis N ε :=
  match a.2 with
  | some (.ok found) => s.applySearch sys a.1 found
  | _ => s

omit [Inhabited σ] in
/-- Of the answers, first the failures are recorded and then the found edges followed. -/
theorem applyAnswers_eq (s : Analysis N ε)
    (answers : List (Nat × Option (Except ε (List (Edge N))))) :
    s.applyAnswers sys answers =
      answers.foldl (followAnswer sys)
        (answers.foldl recordAnswer { s with shown := s.graph.size }) := rfl

/-- Recording an answer takes nothing away and moves no cursor. -/
theorem recordAnswer_extends (s : Analysis N ε) (a : Nat × Option (Except ε (List (Edge N)))) :
    s.Extends (s.recordAnswer a) := by
  unfold recordAnswer
  split
  · exact fail_extends s _ _
  · exact .refl s

omit [Inhabited σ] in
/-- Following what a search found takes nothing away and moves no cursor. -/
theorem applySearch_extends (s : Analysis N ε) (id : Nat) (found : List (Edge N)) :
    s.Extends (s.applySearch sys id found) := by
  unfold applySearch
  exact (count_extends s _).trans
    (extends_foldl _ (fun s e => mark_extends sys s e.target _) found _)

omit [Inhabited σ] in
/-- Following an answer takes nothing away and moves no cursor. -/
theorem followAnswer_extends (s : Analysis N ε) (a : Nat × Option (Except ε (List (Edge N)))) :
    s.Extends (s.followAnswer sys a) := by
  unfold followAnswer
  split
  · exact applySearch_extends s _ _
  · exact .refl s

omit [Inhabited σ] in
/-- The edges that were found lead to marked nodes. -/
theorem mem_followAnswers (s : Analysis N ε)
    (answers : List (Nat × Option (Except ε (List (Edge N))))) {id : Nat} {found : List (Edge N)}
    (hmem : (id, some (.ok found)) ∈ answers) :
    ∀ e ∈ found, e.target ∈ (answers.foldl (followAnswer sys) s).nodes := by
  have hall := forall_mem_foldl (followAnswer sys) followAnswer_extends
    (fun a s => ∀ found, a.2 = some (.ok found) → ∀ e ∈ found, e.target ∈ s.nodes)
    (by
      intro s a found ha e he
      unfold followAnswer
      rw [ha]
      exact forall_mem_foldl
        (fun (s : Analysis N ε) (e : Edge N) => s.mark sys e.target (.dynamic a.1 e.label))
        (fun s e => mark_extends sys s _ _) (fun e s => e.target ∈ s.nodes)
        (fun s e => mem_mark sys s _ _) (fun _ _ _ hg h => hg.mem h) found _ e he)
    (fun _ _ _ hg h found ha e he => hg.mem (h found ha e he)) answers s
  exact hall _ hmem found rfl

/-- The nodes whose searches failed are recorded as failed. -/
theorem hasFailed_recordAnswers (s : Analysis N ε)
    (answers : List (Nat × Option (Except ε (List (Edge N))))) {id : Nat} {n : N} {error : ε}
    (hn : s.nodes[id]? = some n) (hmem : (id, some (.error error)) ∈ answers) :
    (answers.foldl recordAnswer s).graph.hasFailed id = true := by
  induction answers generalizing s with
  | nil => cases hmem
  | cons a answers ih =>
    rcases List.mem_cons.1 hmem with rfl | hmem
    · have hfailed : (s.recordAnswer (id, some (.error error))).graph.hasFailed id = true := by
        rw [hasFailed_iff]
        refine ⟨⟨id, n, error⟩, ?_, rfl⟩
        simp [recordAnswer, failures_fail s error hn]
      exact (extends_foldl recordAnswer recordAnswer_extends answers _).hasFailed hfailed
    · exact ih _ ((recordAnswer_extends s a).getElem? hn) hmem

/-- Recording failures that did happen leaves everything with a reason. -/
theorem Sound.recordAnswers (h : Sound sys C s)
    (answers : List (Nat × Option (Except ε (List (Edge N)))))
    (herror : ∀ {id : Nat} {error : ε} {n : N}, (id, some (.error error)) ∈ answers →
      s.nodes[id]? = some n → ∃ l, (∀ m ∈ l, C m) ∧ (sys.search n l).value = .error error) :
    Sound sys C (answers.foldl recordAnswer s) := by
  induction answers generalizing s with
  | nil => exact h
  | cons a answers ih =>
    have hnodes : (s.recordAnswer a).nodes = s.nodes := by
      unfold recordAnswer
      split
      · exact nodes_fail s _ _
      · rfl
    refine ih ?_ ?_
    · unfold recordAnswer
      split
      · next error ha =>
        refine h.fail a.1 error fun n hn => .inr (herror ?_ hn)
        rw [← ha]
        exact List.mem_cons_self
      · exact h
    · intro id error n hmem hn
      rw [hnodes] at hn
      exact herror (List.mem_cons_of_mem _ hmem) hn

/-- Following edges that lead into the set leaves everything with a reason. -/
theorem Sound.followAnswers (h : Sound sys C s) (hC : sys.Closed C)
    (answers : List (Nat × Option (Except ε (List (Edge N)))))
    (hfound : ∀ {id : Nat} {found : List (Edge N)}, (id, some (.ok found)) ∈ answers →
      ∀ e ∈ found, C e.target) :
    Sound sys C (answers.foldl (followAnswer sys) s) := by
  induction answers generalizing s with
  | nil => exact h
  | cons a answers ih =>
    refine ih ?_ fun hmem => hfound (List.mem_cons_of_mem _ hmem)
    unfold followAnswer
    split
    · next found ha =>
      have hmem : (a.1, some (.ok found)) ∈ a :: answers := by
        rw [← ha]
        exact List.mem_cons_self
      exact (h.count _).markEdges hC _ (hfound hmem)
    · exact h

/-- A node that has not failed is shown what it has not seen, if there is something. -/
theorem value_look (sys : NodeSystem N ε σ) (s : Analysis N ε) (id : Nat) :
    (look sys s id).value =
      if s.seen id = s.nodes.length ∨ s.graph.hasFailed id = true then none
      else s.nodes[id]?.map fun n => (sys.search n (s.nodes.drop (s.seen id))).value := by
  unfold look
  rw [s.size_graph, s.get?_nodes]
  simp only [Bool.or_eq_true, decide_eq_true_eq, since_eq_drop]
  split
  · rfl
  · split
    · next hn => simp [hn]
    · next n hn => simp [hn]

/-- All searches are over the nodes that are marked before the first of them. -/
theorem value_searchAll (s : Analysis N ε) :
    (s.searchAll sys).value =
      s.applyAnswers sys (s.dynamic.toList.map fun id => (id, (look sys s id).value)) := by
  simp [searchAll]

/-- An answer comes from a dynamic node that has not failed, searching what it has not seen. -/
theorem look_eq_some {id : Nat} {r : Except ε (List (Edge N))}
    (h : (look sys s id).value = some r) :
    ∃ n, s.nodes[id]? = some n ∧ s.graph.hasFailed id = false ∧
      r = (sys.search n (s.nodes.drop (s.seen id))).value := by
  rw [value_look] at h
  split at h
  · cases h
  · next hcond =>
    obtain ⟨n, hn, hr⟩ := Option.map_eq_some_iff.1 h
    refine ⟨n, hn, ?_, hr.symm⟩
    simp only [not_or, Bool.not_eq_true] at hcond
    exact hcond.2

/-- Following the answers of the dynamic nodes keeps within a closed set. -/
theorem Sound.searchAll (h : Sound sys C s) (hC : sys.Closed C) (hexp : Expanded sys s) :
    Sound sys C (s.searchAll sys).value := by
  have hanswer : ∀ {id : Nat} {r : Except ε (List (Edge N))},
      (id, some r) ∈ s.dynamic.toList.map (fun id => (id, (look sys s id).value)) →
      id ∈ s.dynamic.toList ∧ (look sys s id).value = some r := by
    intro id r hmem
    obtain ⟨j, hj, heq⟩ := List.mem_map.1 hmem
    obtain ⟨rfl, hr⟩ := Prod.mk.inj heq
    exact ⟨hj, hr⟩
  rw [value_searchAll, applyAnswers_eq]
  have hshown : Sound sys C { s with shown := s.graph.size } :=
    ⟨h.within, h.waiting, h.dynamic, h.failures⟩
  have hwithin : ∀ id, ∀ m ∈ s.nodes.drop (s.seen id), C m := fun id m hm =>
    h.within m (List.mem_of_mem_drop hm)
  refine (hshown.recordAnswers _ ?_).followAnswers hC _ ?_
  · intro id error n hmem hn
    obtain ⟨m, hm, -, hr⟩ := look_eq_some (hanswer hmem).2
    have hnm : some n = some m := hn.symm.trans hm
    cases hnm
    exact ⟨_, hwithin id, hr.symm⟩
  · intro id found hmem
    obtain ⟨hid, hlook⟩ := hanswer hmem
    obtain ⟨n, hn, hfailed, hr⟩ := look_eq_some hlook
    obtain ⟨m, hm, hd⟩ := (h.dynamic id).1 hid
    rw [hn] at hm
    cases hm
    obtain ⟨x, hx⟩ := hexp.exists_ok hn hfailed
    exact hC.dynamic (h.within n (List.mem_of_getElem? hn)) hx hd (hwithin id) hr.symm

/-- A round of searches moves the cursor of the searches to the end. -/
theorem searchAll_spec (sys : NodeSystem N ε σ) (s : Analysis N ε) :
    let s' := (s.searchAll sys).value
    s.Grows s' ∧ s'.shown = s.nodes.length ∧ s'.expanded = s.expanded ∧ s'.batched = s.batched ∧
      s'.heedsStop = s.heedsStop := by
  rw [value_searchAll, applyAnswers_eq]
  have hgrow : s.Grows { s with shown := s.graph.size } :=
    ⟨List.prefix_rfl, List.prefix_rfl, fun _ _ h => h⟩
  have hext := (extends_foldl recordAnswer recordAnswer_extends
      (s.dynamic.toList.map fun id => (id, (look sys s id).value))
      { s with shown := s.graph.size }).trans
    (extends_foldl (followAnswer sys) followAnswer_extends
      (s.dynamic.toList.map fun id => (id, (look sys s id).value)) _)
  exact ⟨hgrow.trans hext.toGrows, hext.shown.trans s.size_graph, hext.expanded, hext.batched,
    hext.heedsStop⟩

/-- After a round of searches, every dynamic node has failed or has searched all nodes. -/
theorem searched_searchAll (h : Valid sys C s) (hsys : sys.NodeByNode) {i : Nat} {n : N}
    (hn : s.nodes[i]? = some n) (hd : sys.isDynamic n = true) :
    (s.searchAll sys).value.graph.hasFailed i = true ∨
      ∀ m ∈ s.nodes, (s.searchAll sys).value.Found sys n m := by
  have hg := (searchAll_spec sys s).1
  have hi : i < s.nodes.length := (List.getElem?_eq_some_iff.1 hn).1
  have hmem : (i, (look sys s i).value) ∈
      s.dynamic.toList.map (fun id => (id, (look sys s id).value)) :=
    List.mem_map_of_mem ((h.sound.dynamic i).2 ⟨n, hn, hd⟩)
  have hlook := value_look sys s i
  by_cases hfailed : s.graph.hasFailed i = true
  · exact .inl (hg.hasFailed hfailed)
  -- the nodes that were seen before were searched then
  have hseen : ∀ m ∈ s.nodes.take (s.seen i), s.Found sys n m := by
    intro m hm
    unfold seen at hm
    split at hm
    · next hlt => exact (h.progress.searched hn hd hlt).resolve_left hfailed m hm
    · simp at hm
  by_cases hall : s.seen i = s.nodes.length
  · refine .inr fun m hm => (hseen m ?_).mono hg
    rwa [hall, List.take_length]
  · rw [if_neg (by simp [hall, hfailed]), hn, Option.map_some] at hlook
    rw [hlook] at hmem
    rw [value_searchAll, applyAnswers_eq] at hg ⊢
    cases hr : (sys.search n (s.nodes.drop (s.seen i))).value with
    | error error =>
      rw [hr] at hmem
      left
      refine (extends_foldl (followAnswer sys) followAnswer_extends _ _).hasFailed ?_
      exact hasFailed_recordAnswers _ _ hn hmem
    | ok found =>
      rw [hr] at hmem
      right
      intro m hm
      rw [← List.take_append_drop (s.seen i) s.nodes, List.mem_append] at hm
      rcases hm with hm | hm
      · exact (hseen m hm).mono hg
      · obtain ⟨one, hone⟩ := hsys.answers hr m hm
        refine ⟨one, hone, fun e he => ?_⟩
        exact mem_followAnswers _ _ hmem e ((hsys.mem_iff hr e).2 ⟨m, hm, one, hone, he⟩)

/-- After a round of searches, a state in which all nodes are expanded is valid. -/
theorem Valid.searchAll (h : Valid sys C s) (hC : sys.Closed C) (hsys : sys.NodeByNode)
    (hexp : Expanded sys s) : Valid sys C (s.searchAll sys).value := by
  obtain ⟨hg, hshown, hexpanded, hbatched, -⟩ := searchAll_spec sys s
  refine ⟨h.sound.searchAll hC hexp, ?_, ?_, ?_, ?_, ?_⟩
  · rw [hexpanded]
    exact Nat.le_trans h.progress.expanded_le hg.length_le
  · rw [hbatched]
    exact Nat.le_trans h.progress.batched_le hg.length_le
  · rw [hshown]
    exact hg.length_le
  · refine h.progress.handled_of_grows hg ?_
    intro i n _ hold hi
    unfold cursor at hold hi
    rw [hexpanded, hbatched] at hi
    exact absurd hi (Nat.not_lt.2 hold)
  · intro i n hn hd hi
    rw [hshown] at hi ⊢
    obtain ⟨rest, hrest⟩ := hg.nodes
    rw [← hrest, List.take_left]
    exact searched_searchAll h hsys (hg.getElem?_of_lt hn hi) hd

/-! ## Runs -/

/-- Nothing leads out of the marked nodes, and what went wrong is recorded. -/
structure Complete (sys : NodeSystem N ε σ) (s : Analysis N ε) : Prop where
  edge : ∀ {n : N} {x : Expansion N}, n ∈ s.nodes → (sys.expand n).value = .ok x →
    ∀ e ∈ x.edges, e.target ∈ s.nodes
  conditional : ∀ {n : N} {x : Expansion N}, n ∈ s.nodes → (sys.expand n).value = .ok x →
    ∀ e ∈ x.conditional, e.condition ∈ s.nodes → e.target ∈ s.nodes
  failed : ∀ {n : N} {error : ε}, n ∈ s.nodes → (sys.expand n).value = .error error →
    ∃ f ∈ s.failures, f.node = n ∧ f.error = error
  dynamic : ∀ {n : N}, n ∈ s.nodes → sys.isDynamic n = true →
    (∃ f ∈ s.failures, f.node = n) ∨ ∀ m ∈ s.nodes, s.Found sys n m

/-- What a run that starts in a state leads to. -/
def Leads (sys : NodeSystem N ε σ) (C : N → Prop) (s : Analysis N ε) : Outcome N ε → Prop
  | .finished s' => Valid sys C s' ∧ s.Grows s' ∧ Complete sys s'
  | .cancelled s' => Valid sys C s' ∧ s.Grows s'
  | .exhausted => True

/-- What a run leads to from a grown state, it leads to from the state before. -/
theorem Leads.of_grows {s₁ : Analysis N ε} {o : Outcome N ε} (h : Leads sys C s₁ o)
    (hg : s.Grows s₁) : Leads sys C s o := by
  cases o with
  | finished s' => exact ⟨h.1, hg.trans h.2.1, h.2.2⟩
  | cancelled s' => exact ⟨h.1, hg.trans h.2⟩
  | exhausted => trivial

/-- A run drains the queue, expands a batch or searches, and goes on until nothing is left to do. -/
theorem value_run_succ (sys : NodeSystem N ε σ) (fuel : Nat) (s : Analysis N ε) :
    (run sys (fuel + 1) s).value =
      if (s.heedsStop && s.stopRequested) = true then .cancelled s
      else
        match (drain sys fuel (s.count fun c => { c with rounds := c.rounds + 1 })).value with
        | none => .exhausted
        | some s₁ =>
          if s₁.pending sys = [] then
            let s₂ := ({ s₁ with batched := s₁.graph.size }.searchAll sys).value
            if s₁.graph.size < s₂.graph.size then (run sys fuel s₂).value else .finished s₂
          else
            (run sys fuel ({ s₁ with batched := s₁.graph.size }.expandBatch sys
              (s₁.pending sys)).value).value := by
  rw [run]
  split
  · rfl
  · simp only [Recorded.value_bind]
    cases (drain sys fuel (s.count fun c => { c with rounds := c.rounds + 1 })).value with
    | none => rfl
    | some s₁ =>
      simp only [List.isEmpty_iff]
      split
      · simp only [Recorded.value_bind, gt_iff_lt]
        split <;> rfl
      · exact Recorded.value_bind _ _

/-- If no deferred node is left when the drain ends, all nodes have been expanded. -/
theorem Valid.expanded_of_pending (h : Valid sys C s) (he : s.expanded = s.nodes.length)
    (hp : s.pending sys = []) :
    Valid sys C { s with batched := s.graph.size } ∧
      Expanded sys { s with batched := s.graph.size } := by
  have hg : s.Grows { s with batched := s.graph.size } :=
    ⟨List.prefix_rfl, List.prefix_rfl, fun _ _ h => h⟩
  have hall : Expanded sys { s with batched := s.graph.size } := by
    intro i n hn
    have hi : i < s.nodes.length := (List.getElem?_eq_some_iff.1 hn).1
    refine (h.progress.handled hn ?_).mono hg
    unfold cursor
    split
    · next hd =>
      by_contra hb
      have hmem : (i, n) ∈ s.pending sys := mem_pending.2 ⟨hn, Nat.le_of_not_lt hb, hd⟩
      simp [hp] at hmem
    · omega
  refine ⟨⟨⟨h.sound.within, h.sound.waiting, h.sound.dynamic, h.sound.failures⟩, ?_⟩, hall⟩
  exact h.progress.advance hg h.progress.expanded_le (Nat.le_of_eq s.size_graph) rfl
    fun hn _ _ => hall hn

/-- A round of searches that marks nothing new leaves a complete marking. -/
theorem Complete.of_searchAll (h : Valid sys C s) (hC : sys.Closed C) (hsys : sys.NodeByNode)
    (hexp : Expanded sys s)
    (hsize : (s.searchAll sys).value.graph.size ≤ s.graph.size) :
    Complete sys (s.searchAll sys).value := by
  have hg := (searchAll_spec sys s).1
  have hv := h.searchAll hC hsys hexp
  have hnodes : (s.searchAll sys).value.nodes = s.nodes := by
    rw [size_graph, size_graph] at hsize
    exact (hg.nodes.eq_of_length (Nat.le_antisymm hg.length_le hsize)).symm
  have hhandled : ∀ {n : N}, n ∈ (s.searchAll sys).value.nodes → ∃ i, s.nodes[i]? = some n ∧
      (s.searchAll sys).value.Handled i n (sys.expand n).value := by
    intro n hn
    rw [hnodes] at hn
    obtain ⟨i, hi⟩ := List.mem_iff_getElem?.1 hn
    exact ⟨i, hi, (hexp hi).mono hg⟩
  constructor
  · intro n x hn hx e he
    obtain ⟨i, -, hh⟩ := hhandled hn
    rw [hx] at hh
    exact Followed.edges hh e he
  · intro n x hn hx e he hc
    obtain ⟨i, -, hh⟩ := hhandled hn
    rw [hx] at hh
    exact (Followed.conditional hh e he).resolve_right fun hw => hw.1 hc
  · intro n error hn hx
    obtain ⟨i, -, hh⟩ := hhandled hn
    rw [hx] at hh
    exact ⟨_, hh, rfl, rfl⟩
  · intro n hn hd
    obtain ⟨i, hi, -⟩ := hhandled hn
    rcases searched_searchAll h hsys hi hd with hf | hall
    · left
      obtain ⟨f, hmem, rfl⟩ := (hasFailed_iff _ _).1 hf
      have hnode := (hv.sound.failures f hmem).1
      rw [hg.getElem? hi] at hnode
      exact ⟨f, hmem, (Option.some.inj hnode).symm⟩
    · right
      rwa [hnodes]

/-- A run leads to states that stay within every closed set, and it is finished only if nothing is
left to mark. -/
theorem Valid.run (hC : sys.Closed C) (hsys : sys.NodeByNode) (fuel : Nat)
    (h : Valid sys C s) : Leads sys C s (Analysis.run sys fuel s).value := by
  induction fuel generalizing s with
  | zero => trivial
  | succ fuel ih =>
    rw [value_run_succ]
    split
    · exact ⟨h, .refl s⟩
    · cases hdrain : (Analysis.drain sys fuel
          (s.count fun c => { c with rounds := c.rounds + 1 })).value with
      | none => trivial
      | some s₁ =>
        obtain ⟨h₁, hg₁, he₁, -, -⟩ := (h.count _).drain hC hdrain
        have hg : s.Grows s₁ := (count_extends s _).toGrows.trans hg₁
        dsimp only
        split
        · next hp =>
          obtain ⟨hv, hexp⟩ := h₁.expanded_of_pending he₁ hp
          have hgb : s₁.Grows { s₁ with batched := s₁.graph.size } :=
            ⟨List.prefix_rfl, List.prefix_rfl, fun _ _ h => h⟩
          have hg₂ := (hg.trans hgb).trans (searchAll_spec sys _).1
          split
          · exact (ih (hv.searchAll hC hsys hexp)).of_grows hg₂
          · next hsize =>
            exact ⟨hv.searchAll hC hsys hexp, hg₂,
              .of_searchAll hv hC hsys hexp (Nat.le_of_not_lt hsize)⟩
        · obtain ⟨hv, hg₂, -, -⟩ := h₁.expandBatch hC
          exact (ih hv).of_grows (hg.trans hg₂)

/-- More fuel drains the same nodes. -/
theorem drain_mono {fuel fuel' : Nat} (hle : fuel ≤ fuel')
    (h : (drain sys fuel s).value = some s') : (drain sys fuel' s).value = some s' := by
  induction fuel generalizing s fuel' with
  | zero =>
    cases hn : s.nodes[s.expanded]? with
    | none => rwa [value_drain_of_none _ hn] at h ⊢
    | some n => simp [value_drain_zero hn] at h
  | succ fuel ih =>
    cases hn : s.nodes[s.expanded]? with
    | none => rwa [value_drain_of_none _ hn] at h ⊢
    | some n =>
      obtain ⟨fuel'', rfl⟩ : ∃ k, fuel' = k + 1 := ⟨fuel' - 1, by omega⟩
      rw [value_drain_succ _ hn] at h ⊢
      exact ih (Nat.le_of_succ_le_succ hle) h

/-- More fuel leads to the same outcome. -/
theorem run_mono {fuel fuel' : Nat} (hle : fuel ≤ fuel')
    (h : (run sys fuel s).value ≠ .exhausted) :
    (run sys fuel' s).value = (run sys fuel s).value := by
  induction fuel generalizing s fuel' with
  | zero => exact absurd rfl h
  | succ fuel ih =>
    obtain ⟨fuel'', rfl⟩ : ∃ k, fuel' = k + 1 := ⟨fuel' - 1, by omega⟩
    have hle' : fuel ≤ fuel'' := Nat.le_of_succ_le_succ hle
    rw [value_run_succ] at h
    rw [value_run_succ, value_run_succ]
    split
    · rfl
    · next hstop =>
      rw [if_neg hstop] at h
      cases hdrain : (drain sys fuel
          (s.count fun c => { c with rounds := c.rounds + 1 })).value with
      | none => simp [hdrain] at h
      | some s₁ =>
        rw [hdrain] at h
        rw [drain_mono hle' hdrain]
        dsimp only at h ⊢
        split
        · next hp =>
          rw [if_pos hp] at h
          split
          · next hsize =>
            rw [if_pos hsize] at h
            exact ih hle' h
          · rfl
        · next hp =>
          rw [if_neg hp] at h
          exact ih hle' h

/-- A run comes to an end if a finite list is closed.  Every round but the last marks a new node or
moves the cursor of the deferred nodes, and neither exceeds the length of the list. -/
theorem Valid.run_ne_exhausted {L : List N} (hC : sys.Closed (· ∈ L)) (hsys : sys.NodeByNode)
    {fuel : Nat} (h : Valid sys (· ∈ L) s)
    (hfuel : L.length + (L.length - s.batched) + (L.length - s.nodes.length) < fuel) :
    (Analysis.run sys fuel s).value ≠ .exhausted := by
  induction fuel generalizing s with
  | zero => omega
  | succ fuel ih =>
    rw [value_run_succ]
    split
    · simp
    · obtain ⟨s₁, hdrain⟩ : ∃ s₁, (Analysis.drain sys fuel
          (s.count fun c => { c with rounds := c.rounds + 1 })).value = some s₁ :=
        (h.count _).exists_drain hC (by omega)
      obtain ⟨h₁, hg₁, he₁, hb₁, -⟩ := (h.count _).drain hC hdrain
      have hlen₁ : s.nodes.length ≤ s₁.nodes.length := hg₁.length_le
      have hbatched₁ : s₁.batched = s.batched := hb₁
      have hle₁ := h₁.progress.batched_le
      rw [hdrain]
      dsimp only
      split
      · next hp =>
        obtain ⟨hv, hexp⟩ := h₁.expanded_of_pending he₁ hp
        have hb₂ : (Analysis.searchAll sys { s₁ with batched := s₁.graph.size }).value.batched =
            s₁.graph.size := (searchAll_spec sys _).2.2.2.1
        have hv₂ := hv.searchAll hC hsys hexp
        have hlen₂ := hv₂.length_le
        split
        · next hsize =>
          -- the searches have marked a node
          have hsize₁ := s₁.size_graph
          have hsize₂ :=
            (Analysis.searchAll sys { s₁ with batched := s₁.graph.size }).value.size_graph
          exact ih hv₂ (by omega)
        · simp
      · next hp =>
        obtain ⟨hv₂, hg₂, hb₂, -⟩ := h₁.expandBatch hC
        have hlen₂ := hv₂.length_le
        have hlen₁₂ := hg₂.length_le
        -- the batch has moved its cursor past a pending node
        have hnew : s₁.batched < s₁.nodes.length := by
          obtain ⟨⟨i, n⟩, hmem⟩ := List.exists_mem_of_ne_nil _ hp
          obtain ⟨hn, hle, -⟩ := mem_pending.1 hmem
          exact Nat.lt_of_le_of_lt hle (List.getElem?_eq_some_iff.1 hn).1
        exact ih hv₂ (by omega)

/-- A run that does not heed requests to stop is never cancelled. -/
theorem Valid.run_ne_cancelled (hC : sys.Closed C) (hsys : sys.NodeByNode) (fuel : Nat)
    (h : Valid sys C s) (hstop : s.heedsStop = false) :
    (Analysis.run sys fuel s).value ≠ .cancelled s' := by
  induction fuel generalizing s with
  | zero => simp [Analysis.run]
  | succ fuel ih =>
    rw [value_run_succ, if_neg (by simp [hstop])]
    cases hdrain : (Analysis.drain sys fuel
        (s.count fun c => { c with rounds := c.rounds + 1 })).value with
    | none => simp
    | some s₁ =>
      obtain ⟨h₁, -, he₁, -, hh₁⟩ := (h.count _).drain hC hdrain
      dsimp only
      split
      · next hp =>
        obtain ⟨hv, hexp⟩ := h₁.expanded_of_pending he₁ hp
        obtain ⟨-, -, -, -, hh₂⟩ := searchAll_spec sys { s₁ with batched := s₁.graph.size }
        split
        · exact ih (hv.searchAll hC hsys hexp) (hh₂.trans (hh₁.trans hstop))
        · simp
      · obtain ⟨hv, -, -, hh₂⟩ := h₁.expandBatch hC
        exact ih hv (hh₂.trans (hh₁.trans hstop))

/-! ## Runs that nobody asks to stop -/

/-- Neither whether requests to stop are heeded nor whether there was one has changed. -/
def Steady (s s' : Analysis N ε) : Prop :=
  s'.heedsStop = s.heedsStop ∧ s'.stopRequested = s.stopRequested

/-- Nothing changes about stopping if nothing happens. -/
theorem Steady.refl (s : Analysis N ε) : s.Steady s :=
  ⟨rfl, rfl⟩

/-- If nothing changes about stopping in two steps, nothing does. -/
theorem Steady.trans {s'' : Analysis N ε} (h : s.Steady s') (h' : s'.Steady s'') : s.Steady s'' :=
  ⟨h'.1.trans h.1, h'.2.trans h.2⟩

/-- If nothing changes about stopping at any item, nothing does along a list. -/
theorem steady_foldl {α : Type} {f : Analysis N ε → α → Analysis N ε}
    (hf : ∀ s a, Steady s (f s a)) (l : List α) (s : Analysis N ε) : s.Steady (l.foldl f s) := by
  induction l generalizing s with
  | nil => exact .refl s
  | cons a l ih => exact (hf s a).trans (ih (f s a))

omit [Inhabited σ] in
/-- Marking a node changes nothing about stopping. -/
theorem mark_steady (sys : NodeSystem N ε σ) (s : Analysis N ε) (n : N) (r : Reason) :
    s.Steady (s.mark sys n r) := by
  unfold mark
  generalize [(n, r)] = stack
  fun_induction markAll sys s stack with
  | case1 s => exact .refl s
  | case2 s n r rest h ih => exact ih
  | case3 s n r rest h id released ih =>
    refine Steady.trans ?_ ih
    unfold enter
    split <;> exact ⟨rfl, rfl⟩

/-- A failure changes nothing about stopping. -/
theorem fail_steady (s : Analysis N ε) (id : Nat) (error : ε) : s.Steady (s.fail id error) := by
  unfold fail
  split <;> exact ⟨rfl, rfl⟩

omit [Inhabited σ] in
/-- Taking care of an expansion changes nothing about stopping. -/
theorem apply_steady (sys : NodeSystem N ε σ) (s : Analysis N ε) (id : Nat)
    (r : Except ε (Expansion N)) : s.Steady (s.apply sys id r) := by
  have hcount (f : Stats → Stats) : s.Steady (s.count f) := ⟨rfl, rfl⟩
  cases r with
  | error error => exact (hcount _).trans (fail_steady _ id error)
  | ok x =>
    refine ((hcount _).trans (steady_foldl (fun s e => mark_steady sys s _ _) x.edges _)).trans
      (steady_foldl (fun s e => ?_) x.conditional _)
    unfold addConditional
    split
    · exact Steady.trans ⟨rfl, rfl⟩ (mark_steady sys _ _ _)
    · split <;> exact ⟨rfl, rfl⟩

section Quiet

-- No node asks to stop.
variable (hquiet : ∀ n, sys.requestsStop n = false)
include hquiet

/-- Expanding a node that does not ask to stop changes nothing about stopping. -/
theorem expandNode_steady (s : Analysis N ε) (id : Nat) (n : N) :
    s.Steady (s.expandNode sys id n).value := by
  rw [value_expandNode, hquiet, Bool.or_false]
  exact apply_steady sys s id _

/-- Draining the queue changes nothing about stopping. -/
theorem drain_steady {s s' : Analysis N ε} {fuel : Nat}
    (hdrain : (drain sys fuel s).value = some s') : s.Steady s' := by
  refine drain_induction (motive := (Steady · s')) (fun _ => .refl s') (fun {s n} _ ih => ?_) hdrain
  refine Steady.trans ?_ ih
  unfold passNext
  split
  · exact ⟨rfl, rfl⟩
  · exact expandNode_steady hquiet { s with expanded := s.expanded + 1 } _ n

omit hquiet in
/-- Searches change nothing about stopping. -/
theorem searchAll_steady (sys : NodeSystem N ε σ) (s : Analysis N ε) :
    s.Steady (s.searchAll sys).value := by
  have hrecord (s : Analysis N ε) (a : Nat × Option (Except ε (List (Edge N)))) :
      s.Steady (s.recordAnswer a) := by
    unfold recordAnswer
    split
    · exact fail_steady s _ _
    · exact .refl s
  have hfollow (s : Analysis N ε) (a : Nat × Option (Except ε (List (Edge N)))) :
      s.Steady (s.followAnswer sys a) := by
    unfold followAnswer
    split
    · exact steady_foldl (fun s e => mark_steady sys s _ _) _ (s.count _)
    · exact .refl s
  rw [value_searchAll, applyAnswers_eq]
  exact (steady_foldl hrecord _ { s with shown := s.graph.size }).trans (steady_foldl hfollow _ _)

/-- A run is cancelled only if it is asked to stop. -/
theorem run_ne_cancelled_of_quiet (fuel : Nat) (hgo : (s.heedsStop && s.stopRequested) = false) :
    (Analysis.run sys fuel s).value ≠ .cancelled s' := by
  induction fuel generalizing s with
  | zero => simp [Analysis.run]
  | succ fuel ih =>
    have hgo' : ∀ {s'' : Analysis N ε}, s.Steady s'' →
        (s''.heedsStop && s''.stopRequested) = false := by
      rintro s'' ⟨hheeds, hasked⟩
      rw [hheeds, hasked, hgo]
    rw [value_run_succ, if_neg (by simp [hgo])]
    cases hdrain : (Analysis.drain sys fuel
        (s.count fun c => { c with rounds := c.rounds + 1 })).value with
    | none => simp
    | some s₁ =>
      have h₁ : s.Steady { s₁ with batched := s₁.graph.size } :=
        ⟨(drain_steady hquiet hdrain).1, (drain_steady hquiet hdrain).2⟩
      dsimp only
      split
      · split
        · exact ih (hgo' (h₁.trans (searchAll_steady sys _)))
        · simp
      · refine ih (hgo' (h₁.trans ?_))
        rw [Analysis.expandBatch, Recorded.value_foldlM]
        exact steady_foldl (fun s (p : Nat × N) => expandNode_steady hquiet s p.1 p.2) _
          (count _ _)

end Quiet

end Analysis

end AheadOfTime.Marking
