import AheadOfTime.Proofs.Marking.Journal

/-!
# Every node is processed once

A journal tells in which order nodes were expanded and what dynamic nodes were shown.  The journal of
a marking is orderly, whatever is done to the marking: roots that are added between runs, runs that
are stopped and taken up again.  No node is expanded twice or before it was marked, and what a
dynamic node is shown, search by search, is what was marked, from the first node on and each node
once, until it fails.  When a run is finished there is nothing left to expand or to show.

What was marked at some time is not part of the journal; it is what the events up to then lead to
(`replay`).  Two things are kept by each step of a marking: the state has the marks that its journal
leads to (`SameMarks`), and its counters and its list of failures tell what is in the journal
(`Tallies`).  From these follows what may be entered next (`Due`).
-/

set_option autoImplicit false

namespace AheadOfTime.Marking

variable {N ε σ ω : Type} [BEq N] [LawfulBEq N] [Hashable N] [Recorder σ ω] [Inhabited σ]

/-! ## Reading a journal -/

/-- The nodes that were expanded, in order. -/
def expansions (events : List (Event N)) : List N :=
  events.filterMap fun
    | .expand n => some n
    | _ => none

/-- What a node was shown, search by search. -/
def windows (events : List (Event N)) (n : N) : List (List N) :=
  events.filterMap fun
    | .search m shown => if m == n then some shown else none
    | _ => none

/-- An expansion or a search of the node failed. -/
def Fails (sys : NodeSystem N ε σ) (events : List (Event N)) (n : N) : Prop :=
  (.expand n ∈ events ∧ ∃ error, (sys.expand n).value = .error error) ∨
    ∃ shown error, .search n shown ∈ events ∧ (sys.search n shown).value = .error error

/-- Marks what an event leads to. -/
def Analysis.redo (sys : NodeSystem N ε σ) (s : Analysis N ε) : Event N → Analysis N ε
  | .root n label => s.addRoot sys n label
  | .expand n => s.apply sys ((s.graph.position? n).getD 0) (sys.expand n).value
  | .search n shown =>
    match (sys.search n shown).value with
    | .ok found => s.applySearch sys ((s.graph.position? n).getD 0) found
    | .error _ => s

/-- The state that events lead to, as far as marks are concerned. -/
def replay (sys : NodeSystem N ε σ) (events : List (Event N)) : Analysis N ε :=
  events.foldl (Analysis.redo sys) {}

/-- The nodes that events mark, in marking order. -/
def markedBy (sys : NodeSystem N ε σ) (events : List (Event N)) : List N :=
  (replay sys events).nodes

/-- A journal as it should be. -/
structure Orderly (sys : NodeSystem N ε σ) (events : List (Event N)) : Prop where
  /-- No node is expanded twice. -/
  expandsOnce : (expansions events).Nodup
  /-- A node is expanded only after it was marked. -/
  expandsMarked : ∀ {before after : List (Event N)} {n : N}, events = before ++ .expand n :: after →
    n ∈ markedBy sys before
  /-- Only dynamic nodes are shown nodes, after they were marked and before they fail. -/
  searches : ∀ {before after : List (Event N)} {n : N} {shown : List N},
    events = before ++ .search n shown :: after →
      n ∈ markedBy sys before ∧ sys.isDynamic n = true ∧ ¬Fails sys before n
  /-- What a node is shown is what was marked, in order, from the first node on. -/
  shows : ∀ n, (windows events n).flatten <+: markedBy sys events

/-- An event may be entered next. -/
def Due (sys : NodeSystem N ε σ) (events : List (Event N)) : Event N → Prop
  | .root _ _ => True
  | .expand n => n ∈ markedBy sys events ∧ .expand n ∉ events
  | .search n shown => n ∈ markedBy sys events ∧ sys.isDynamic n = true ∧ ¬Fails sys events n ∧
      (windows events n).flatten ++ shown <+: markedBy sys events

section Views

variable {sys : NodeSystem N ε σ} {events before after : List (Event N)} {e : Event N} {n : N}

omit [BEq N] [LawfulBEq N] [Hashable N] in
/-- The expanded nodes are those whose expansion is written down. -/
theorem mem_expansions : n ∈ expansions events ↔ .expand n ∈ events := by
  unfold expansions
  rw [List.mem_filterMap]
  constructor
  · rintro ⟨e, he, heq⟩
    cases e with
    | expand m =>
      cases heq
      exact he
    | _ => cases heq
  · exact fun h => ⟨_, h, rfl⟩

omit [Hashable N] in
/-- What a node was shown is what is written down of its searches. -/
theorem mem_windows {shown : List N} : shown ∈ windows events n ↔ .search n shown ∈ events := by
  unfold windows
  rw [List.mem_filterMap]
  constructor
  · rintro ⟨e, he, heq⟩
    cases e with
    | search m l =>
      dsimp only at heq
      split at heq
      · next hmn =>
        cases heq
        rwa [← eq_of_beq hmn]
      · cases heq
    | _ => cases heq
  · exact fun h => ⟨_, h, by simp⟩

omit [BEq N] [LawfulBEq N] [Hashable N] in
/-- Events that are noted stand at the end of the journal. -/
theorem toList_noteAll (events : Array (Event N)) (more : List (Event N)) :
    (Recorder.noteAll events more).toList = events.toList ++ more := by
  induction more generalizing events with
  | nil => exact (List.append_nil _).symm
  | cons e more ih =>
    show (Recorder.noteAll (events.push e) more).toList = _
    rw [ih, Array.toList_push, List.append_assoc]
    rfl

/-- Joined journals are replayed one after the other. -/
theorem replay_append (sys : NodeSystem N ε σ) (events more : List (Event N)) :
    replay sys (events ++ more) = more.foldl (Analysis.redo sys) (replay sys events) :=
  List.foldl_append

/-- Replaying an event takes no mark away. -/
theorem Analysis.redo_extends (sys : NodeSystem N ε σ) (s : Analysis N ε) (e : Event N) :
    s.Extends (s.redo sys e) := by
  cases e with
  | root n label => exact mark_extends sys s n _
  | expand n => exact apply_extends sys s _ _
  | search n shown =>
    simp only [redo]
    split
    · exact applySearch_extends s _ _
    · exact .refl s

/-- What was marked stays marked when more happens. -/
theorem markedBy_mono (sys : NodeSystem N ε σ) (events more : List (Event N)) :
    markedBy sys events <+: markedBy sys (events ++ more) := by
  rw [markedBy, markedBy, replay_append]
  exact (Analysis.extends_foldl _ (Analysis.redo_extends sys) more _).nodes

omit [BEq N] [LawfulBEq N] [Hashable N] in
/-- An event of a longer journal is the last one, or it was there before. -/
theorem eq_or_exists_of_concat {last : Event N} (h : events ++ [last] = before ++ e :: after) :
    (events = before ∧ e = last) ∨ ∃ rest, events = before ++ e :: rest := by
  rcases List.eq_nil_or_concat after with rfl | ⟨rest, a, rfl⟩
  · obtain ⟨hevents, hlast⟩ := List.append_inj' h rfl
    exact .inl ⟨hevents, (List.head_eq_of_cons_eq hlast).symm⟩
  · rw [List.concat_eq_append, ← List.cons_append, ← List.append_assoc] at h
    exact .inr ⟨rest, (List.append_inj' h rfl).1⟩

omit [LawfulBEq N] [Hashable N] in
/-- What a node is shown in joined journals is what it is shown in each of them. -/
theorem windows_append (events more : List (Event N)) (n : N) :
    windows (events ++ more) n = windows events n ++ windows more n :=
  List.filterMap_append

omit [LawfulBEq N] [Hashable N] in
/-- An expansion shows nothing to any node. -/
theorem windows_concat_expand (events : List (Event N)) (m n : N) :
    windows (events ++ [.expand m]) n = windows events n := by
  rw [windows_append]
  exact List.append_nil _

omit [BEq N] [LawfulBEq N] [Hashable N] in
/-- An expansion makes the node fail that it is about, if any. -/
theorem fails_concat_expand {m : N} : Fails sys (events ++ [.expand m]) n ↔
    Fails sys events n ∨ n = m ∧ ∃ error, (sys.expand m).value = .error error := by
  simp only [Fails, List.mem_append, List.mem_singleton, Event.expand.injEq, reduceCtorEq, or_false]
  grind

omit [BEq N] [LawfulBEq N] [Hashable N] in
/-- A failure that is written down stays so. -/
theorem Fails.mono (h : Fails sys events n) {more : List (Event N)}
    (hsub : ∀ e ∈ events, e ∈ more) : Fails sys more n := by
  rcases h with ⟨he, herror⟩ | ⟨shown, error, he, herror⟩
  · exact .inl ⟨hsub _ he, herror⟩
  · exact .inr ⟨shown, error, hsub _ he, herror⟩

/-- A journal stays as it should be when an event is entered that is due. -/
theorem Orderly.concat (h : Orderly sys events) (hdue : Due sys events e) :
    Orderly sys (events ++ [e]) where
  expandsOnce := by
    have happend : expansions (events ++ [e]) = expansions events ++ expansions [e] :=
      List.filterMap_append
    rw [happend]
    cases e with
    | expand n =>
      refine List.nodup_append.2 ⟨h.expandsOnce, List.nodup_singleton n, ?_⟩
      rintro a ha b hb rfl
      rw [List.mem_singleton.1 hb] at ha
      exact hdue.2 (mem_expansions.1 ha)
    | _ => exact (List.append_nil (expansions events)).symm ▸ h.expandsOnce
  expandsMarked hsplit := by
    rcases eq_or_exists_of_concat hsplit with ⟨rfl, rfl⟩ | ⟨rest, hrest⟩
    · exact hdue.1
    · exact h.expandsMarked hrest
  searches hsplit := by
    rcases eq_or_exists_of_concat hsplit with ⟨rfl, rfl⟩ | ⟨rest, hrest⟩
    · exact ⟨hdue.1, hdue.2.1, hdue.2.2.1⟩
    · exact h.searches hrest
  shows m := by
    refine List.IsPrefix.trans ?_ (markedBy_mono sys events _)
    rw [windows_append, List.flatten_append]
    cases e with
    | search n shown =>
      by_cases hm : n == m
      · obtain rfl := eq_of_beq hm
        simpa [windows] using hdue.2.2.2
      · simpa [windows, hm] using h.shows m
    | _ => simpa [windows] using h.shows m

end Views

/-! ## States and their journals -/

namespace Analysis

/-- A node is marked at one position only. -/
theorem eq_of_getElem?_nodes (s : Analysis N ε) {i j : Nat} {n : N} (hi : s.nodes[i]? = some n)
    (hj : s.nodes[j]? = some n) : i = j :=
  (List.getElem?_inj (List.getElem?_eq_some_iff.1 hi).1 s.nodup_nodes).1 (hi.trans hj.symm)

/-- What a state says was done is what its journal says, but for the nodes `rest`, which are about to
be expanded. -/
structure Tallies (sys : NodeSystem N ε σ) (rest : List (Nat × N)) (events : List (Event N))
    (s : Analysis N ε) : Prop where
  sound : Sound sys (fun _ => True) s
  expanded_le : s.expanded ≤ s.nodes.length
  batched_le : s.batched ≤ s.nodes.length
  shown_le : s.shown ≤ s.nodes.length
  /-- Each dynamic node is listed once. -/
  listed : s.dynamic.toList.Nodup
  /-- No failure is recorded twice. -/
  failsOnce : (s.failures.map (·.id)).Nodup
  failed : ∀ n, (∃ f ∈ s.failures, f.node = n) ↔ Fails sys events n
  expanded : ∀ n, .expand n ∈ events ↔
    ∃ i, s.nodes[i]? = some n ∧ i < s.cursor sys n ∧ (i, n) ∉ rest
  /-- Nodes are expanded before they are shown anything. -/
  searched : ∀ {n : N} {shown : List N}, .search n shown ∈ events → .expand n ∈ events
  shown : ∀ {i : Nat} {n : N}, s.nodes[i]? = some n → sys.isDynamic n = true →
    s.graph.hasFailed i = false → (windows events n).flatten = s.nodes.take (s.seen i)

/-- A failure changes nothing about which nodes are dynamic. -/
theorem dynamic_fail (s : Analysis N ε) (id : Nat) (error : ε) :
    (s.fail id error).dynamic = s.dynamic := by
  unfold fail
  split <;> rfl

/-- Records the failure of an expansion. -/
def recordExpansion (s : Analysis N ε) (id : Nat) : Except ε (Expansion N) → Analysis N ε
  | .ok _ => s
  | .error error => s.fail id error

namespace Tallies

variable {sys : NodeSystem N ε σ} {rest : List (Nat × N)} {events : List (Event N)}
  {s s' : Analysis N ε} {i : Nat} {n : N}

/-- No cursor is past the marked nodes. -/
theorem cursor_le (h : Tallies sys rest events s) (n : N) : s.cursor sys n ≤ s.nodes.length := by
  unfold cursor
  split
  · exact h.batched_le
  · exact h.expanded_le

/-- A node whose expansion is written down is marked. -/
theorem mem_nodes (h : Tallies sys rest events s) (hn : .expand n ∈ events) : n ∈ s.nodes := by
  obtain ⟨i, hi, -⟩ := (h.expanded n).1 hn
  exact List.mem_of_getElem? hi

/-- A failure is recorded exactly if the journal tells of one. -/
theorem hasFailed_iff (h : Tallies sys rest events s) (hn : s.nodes[i]? = some n) :
    s.graph.hasFailed i = true ↔ Fails sys events n := by
  rw [Analysis.hasFailed_iff, ← h.failed]
  constructor
  · rintro ⟨f, hf, rfl⟩
    have hnode := (h.sound.failures f hf).1
    exact ⟨f, hf, Option.some.inj (hnode.symm.trans hn)⟩
  · rintro ⟨f, hf, rfl⟩
    exact ⟨f, hf, s.eq_of_getElem?_nodes (h.sound.failures f hf).1 hn⟩

/-- Each node fails at most once. -/
theorem nodup_failures (h : Tallies sys rest events s) : (s.failures.map (·.node)).Nodup := by
  have honce := h.failsOnce
  rw [List.Nodup, List.pairwise_map] at honce ⊢
  refine honce.imp_of_mem fun {f g} hf hg hne hnode => hne ?_
  have hg := (h.sound.failures g hg).1
  rw [← hnode] at hg
  exact s.eq_of_getElem?_nodes (h.sound.failures f hf).1 hg

/-- Counting does not change what a state says was done. -/
theorem count (h : Tallies sys rest events s) (f : Stats → Stats) :
    Tallies sys rest events (s.count f) :=
  ⟨h.sound.count f, h.expanded_le, h.batched_le, h.shown_le, h.listed, h.failsOnce, h.failed,
    h.expanded, h.searched, h.shown⟩

/-- Requests to stop are not entered. -/
theorem signal (h : Tallies sys rest events s) (heeds asked : Bool) :
    Tallies sys rest events { s with heedsStop := heeds, stopRequested := asked } :=
  ⟨⟨h.sound.within, h.sound.waiting, h.sound.dynamic, h.sound.failures⟩, h.expanded_le, h.batched_le,
    h.shown_le, h.listed, h.failsOnce, h.failed, h.expanded, h.searched, h.shown⟩

/-- When nodes are marked, what was entered of the others stays so. -/
theorem grow (h : Tallies sys rest events s) (hext : s.Extends s')
    (hsound : Sound sys (fun _ => True) s') (hfailures : s'.failures = s.failures)
    (hlisted : s'.dynamic.toList.Nodup) : Tallies sys rest events s' where
  sound := hsound
  expanded_le := hext.expanded ▸ h.expanded_le.trans hext.length_le
  batched_le := hext.batched ▸ h.batched_le.trans hext.length_le
  shown_le := hext.shown ▸ h.shown_le.trans hext.length_le
  listed := hlisted
  failsOnce := hfailures ▸ h.failsOnce
  failed n := hfailures ▸ h.failed n
  expanded n := by
    rw [h.expanded n, hext.cursor_eq]
    constructor
    · rintro ⟨i, hi, hrest⟩
      exact ⟨i, hext.getElem? hi, hrest⟩
    · rintro ⟨i, hi, hlt, hrest⟩
      exact ⟨i, hext.getElem?_of_lt hi (hlt.trans_le (h.cursor_le n)), hlt, hrest⟩
  searched := h.searched
  shown {i n} hi hd hfailed := by
    have hseen : s'.seen i = s.seen i := by rw [seen, seen, hext.shown]
    by_cases hlt : i < s.nodes.length
    · rw [hseen, h.shown (hext.getElem?_of_lt hi hlt) hd (hext.hasFailed_eq_false hfailed)]
      obtain ⟨more, hmore⟩ := hext.nodes
      have hle : s.seen i ≤ s.nodes.length := by
        unfold seen
        split
        · exact h.shown_le
        · exact Nat.zero_le _
      rw [← hmore, List.take_append_of_le_length hle]
    · -- a node that is new was not shown anything
      have hnone : windows events n = [] := by
        rw [List.eq_nil_iff_forall_not_mem]
        intro shown hshown
        have hmem := h.mem_nodes (h.searched (mem_windows.1 hshown))
        obtain ⟨j, hj⟩ := List.mem_iff_getElem?.1 hmem
        have hjlt := (List.getElem?_eq_some_iff.1 hj).1
        exact hlt (s'.eq_of_getElem?_nodes hi (hext.getElem? hj) ▸ hjlt)
      have hzero : s.seen i = 0 := by
        unfold seen
        rw [if_neg (by have := h.shown_le; omega)]
      rw [hseen, hnone, hzero]
      rfl

/-- The positions of dynamic nodes are positions of marked nodes. -/
theorem lt_of_mem_dynamic (h : Tallies sys rest events s) (hi : i ∈ s.dynamic.toList) :
    i < s.nodes.length := by
  obtain ⟨n, hn, -⟩ := (h.sound.dynamic i).1 hi
  exact (List.getElem?_eq_some_iff.1 hn).1

/-- Adding a root is neither an expansion nor a search. -/
theorem root (h : Tallies sys rest events s) (n : N) (label : String) :
    Tallies sys rest (events ++ [.root n label]) s := by
  refine { h with failed := fun m => ?_, expanded := fun m => ?_, searched := ?_, shown := ?_ }
  · simpa [Fails] using h.failed m
  · simpa using h.expanded m
  · intro m shown hmem
    simpa using h.searched (by simpa using hmem)
  · intro i m hi hd hfailed
    rw [windows_append]
    exact (List.append_nil (windows events m)).symm ▸ h.shown hi hd hfailed

/-- Marking more nodes is not entered. -/
theorem marked (h : Tallies sys rest events s) (hext : s.Extends s')
    (hsound : Sound sys (fun _ => True) s')
    (hkept : ∀ {P : Analysis N ε → Prop}, KeptByMarking sys P → P s → P s') :
    Tallies sys rest events s' := by
  have hfailures : s'.failures = s.failures := hkept (.failures sys s.failures) rfl
  have hlisted := hkept (.dynamic sys) ⟨h.listed, fun _ => h.lt_of_mem_dynamic⟩
  exact h.grow hext hsound hfailures hlisted.1

/-- A node that is about to be expanded was not expanded before, and it has not failed. -/
theorem not_mem (h : Tallies sys ((i, n) :: rest) events s) (hn : s.nodes[i]? = some n) :
    .expand n ∉ events ∧ ¬Fails sys events n := by
  have hexpand : .expand n ∉ events := by
    intro hmem
    obtain ⟨j, hj, -, hrest⟩ := (h.expanded n).1 hmem
    rw [s.eq_of_getElem?_nodes hj hn] at hrest
    exact hrest List.mem_cons_self
  refine ⟨hexpand, ?_⟩
  rintro (⟨hmem, -⟩ | ⟨shown, error, hmem, -⟩)
  · exact hexpand hmem
  · exact hexpand (h.searched hmem)

/-- Searches are written down for expanded nodes only, also after a further expansion. -/
theorem searched_concat_expand (h : Tallies sys rest events s) {m : N} {shown : List N}
    (hmem : .search m shown ∈ events ++ [.expand n]) : .expand m ∈ events ++ [.expand n] := by
  rw [List.mem_append, List.mem_singleton] at hmem
  exact List.mem_append_left _ (h.searched (hmem.resolve_right nofun))

/-- After an expansion one node less is about to be expanded. -/
theorem mem_concat_expand (h : Tallies sys ((i, n) :: rest) events s) (hn : s.nodes[i]? = some n)
    (hcursor : i < s.cursor sys n) (hrest : (i, n) ∉ rest) (m : N) :
    .expand m ∈ events ++ [.expand n] ↔
      ∃ j, s.nodes[j]? = some m ∧ j < s.cursor sys m ∧ (j, m) ∉ rest := by
  rw [List.mem_append, List.mem_singleton, Event.expand.injEq, h.expanded m]
  constructor
  · rintro (⟨j, hj, hlt, hmem⟩ | rfl)
    · exact ⟨j, hj, hlt, fun hrest => hmem (List.mem_cons_of_mem _ hrest)⟩
    · exact ⟨i, hn, hcursor, hrest⟩
  · rintro ⟨j, hj, hlt, hmem⟩
    by_cases hmn : m = n
    · exact .inr hmn
    · refine .inl ⟨j, hj, hlt, ?_⟩
      rintro (_ | ⟨_, hmem'⟩)
      · exact hmn rfl
      · exact hmem hmem'

/-- An expansion that succeeds is entered. -/
theorem expand_ok (h : Tallies sys ((i, n) :: rest) events s) (hn : s.nodes[i]? = some n)
    (hcursor : i < s.cursor sys n) (hrest : (i, n) ∉ rest) {x : Expansion N}
    (hx : (sys.expand n).value = .ok x) : Tallies sys rest (events ++ [.expand n]) s := by
  refine { h with
    failed := fun m => ?_, expanded := h.mem_concat_expand hn hcursor hrest,
    searched := h.searched_concat_expand, shown := ?_ }
  · rw [fails_concat_expand, hx]
    simpa using h.failed m
  · intro j m hj hd hfailed
    rw [windows_concat_expand]
    exact h.shown hj hd hfailed

/-- An expansion that fails is entered, and its failure is recorded. -/
theorem expand_error (h : Tallies sys ((i, n) :: rest) events s) (hn : s.nodes[i]? = some n)
    (hcursor : i < s.cursor sys n) (hrest : (i, n) ∉ rest) {error : ε}
    (hx : (sys.expand n).value = .error error) :
    Tallies sys rest (events ++ [.expand n]) (s.fail i error) := by
  have hext := fail_extends s i error
  have hnodes := nodes_fail s i error
  have hfailures := failures_fail s error hn
  refine ⟨h.sound.fail i error fun m hm => .inl ?_, ?_, ?_, ?_, ?_, ?_, fun m => ?_, fun m => ?_,
    h.searched_concat_expand, ?_⟩
  · rw [← Option.some.inj (hn.symm.trans hm), hx]
  · rw [hext.expanded, hnodes]
    exact h.expanded_le
  · rw [hext.batched, hnodes]
    exact h.batched_le
  · rw [hext.shown, hnodes]
    exact h.shown_le
  · rw [dynamic_fail]
    exact h.listed
  · rw [hfailures, List.map_append]
    refine List.nodup_append.2 ⟨h.failsOnce, List.nodup_singleton i, ?_⟩
    rintro j hj k hk rfl
    obtain ⟨f, hf, hid⟩ := List.mem_map.1 hj
    have hfailed := (s.hasFailed_iff i).2 ⟨f, hf, hid.trans (List.mem_singleton.1 hk)⟩
    exact (h.not_mem hn).2 ((h.hasFailed_iff hn).1 hfailed)
  · rw [fails_concat_expand, ← h.failed m, hfailures, hx]
    simp [or_and_right, exists_or, eq_comm]
  · rw [hnodes, hext.cursor_eq]
    exact h.mem_concat_expand hn hcursor hrest m
  · intro j m hj hd hfailed
    rw [hnodes] at hj ⊢
    rw [windows_concat_expand, seen, hext.shown]
    exact h.shown hj hd (hext.hasFailed_eq_false hfailed)

/-- An expansion is entered, and its failure is recorded. -/
theorem expand (h : Tallies sys ((i, n) :: rest) events s) (hn : s.nodes[i]? = some n)
    (hcursor : i < s.cursor sys n) (hrest : (i, n) ∉ rest) :
    Tallies sys rest (events ++ [.expand n]) (s.recordExpansion i (sys.expand n).value) := by
  cases hx : (sys.expand n).value with
  | ok x => exact h.expand_ok hn hcursor hrest hx
  | error error => exact h.expand_error hn hcursor hrest hx

end Tallies

/-- A state and its journal, when the nodes `rest` are about to be expanded. -/
structure Accurate (sys : NodeSystem N ε σ) (rest : List (Nat × N)) (events : List (Event N))
    (s : Analysis N ε) : Prop where
  orderly : Orderly sys events
  marks : (replay sys events).SameMarks s
  tallies : Tallies sys rest events s

namespace Accurate

variable {sys : NodeSystem N ε σ} {rest : List (Nat × N)} {events : List (Event N)}
  {s s' : Analysis N ε} {i : Nat} {n : N}

/-- The nodes that the journal marks are the marked nodes. -/
theorem markedBy_eq (h : Accurate sys rest events s) : markedBy sys events = s.nodes :=
  h.marks.toList

/-- When the journal is replayed, nodes have the positions that they have in the state. -/
theorem position?_replay (h : Accurate sys rest events s) (hn : s.nodes[i]? = some n) :
    (replay sys events).graph.position? n = some i := by
  rw [Graph.position?, h.marks.nodes]
  exact (s.graph.nodes.position?_eq_some_iff n i).2 (s.get?_nodes i ▸ hn)

/-- A fresh state agrees with an empty journal. -/
theorem fresh (sys : NodeSystem N ε σ) : Accurate sys [] [] ({} : Analysis N ε) := by
  have hnodes : ({} : Analysis N ε).nodes = [] := rfl
  refine ⟨⟨List.nodup_nil, ?_, ?_, fun n => List.nil_prefix⟩, .refl _, ?_⟩
  · intro before after n h
    simp at h
  · intro before after n shown h
    simp at h
  · refine ⟨⟨?_, ?_, ?_, ?_⟩, Nat.le_refl 0, Nat.le_refl 0, Nat.le_refl 0, List.nodup_nil,
      List.nodup_nil, ?_, ?_, ?_, ?_⟩
    all_goals simp [hnodes, failures, Fails, waitingFor]

/-- Adding a root keeps state and journal in agreement. -/
theorem addRoot (h : Accurate sys [] events s) (n : N) (label : String) :
    Accurate sys [] (events ++ [.root n label]) (s.addRoot sys n label) := by
  refine ⟨h.orderly.concat trivial, ?_, ?_⟩
  · rw [replay_append]
    exact h.marks.mark sys n _
  · exact (h.tallies.root n label).marked (mark_extends sys s n _)
      (h.tallies.sound.mark sys.closed_true trivial _) fun hP hs => hP.markAll hs _

/-- Expanding the next of the nodes that are about to be expanded keeps state and journal in
agreement. -/
theorem expandNode (h : Accurate sys ((i, n) :: rest) events s) (hn : s.nodes[i]? = some n)
    (hcursor : i < s.cursor sys n) (hrest : (i, n) ∉ rest) :
    Accurate sys rest (events ++ [.expand n]) (s.expandNode sys i n).value := by
  have hmem : n ∈ markedBy sys events := h.markedBy_eq ▸ List.mem_of_getElem? hn
  have hmarks : (replay sys events).SameMarks
    { s with stopRequested := s.stopRequested || sys.requestsStop n } :=
      ⟨h.marks.nodes, h.marks.waiting⟩
  have htallies := h.tallies.signal s.heedsStop (s.stopRequested || sys.requestsStop n)
  rw [value_expandNode]
  refine ⟨h.orderly.concat ⟨hmem, (h.tallies.not_mem hn).1⟩, ?_, ?_⟩
  · rw [replay_append]
    show ((replay sys events).apply sys _ _).SameMarks _
    rw [h.position?_replay hn]
    exact hmarks.apply sys i _
  · cases hx : (sys.expand n).value with
    | ok x =>
      have hexpand := htallies.expand hn hcursor hrest
      rw [hx] at hexpand
      refine Tallies.marked hexpand (apply_extends sys _ i _) ?_ fun hP hs => hP.apply_ok hs i x
      have hsound := hexpand.sound.apply sys.closed_true hn
      rwa [hx] at hsound
    | error error =>
      have hexpand := (htallies.count fun c => { c with expanded := c.expanded + 1 }).expand hn
        hcursor hrest
      rw [hx] at hexpand
      exact hexpand

/-- Counting keeps state and journal in agreement. -/
theorem count (h : Accurate sys rest events s) (f : Stats → Stats) :
    Accurate sys rest events (s.count f) :=
  ⟨h.orderly, h.marks.trans (.count s f), h.tallies.count f⟩

/-- The next node is about to be expanded, unless it is deferred. -/
theorem pass (h : Accurate sys [] events s) (hn : s.nodes[s.expanded]? = some n) :
    Accurate sys (if sys.isDeferred n then [] else [(s.expanded, n)]) events
      { s with expanded := s.expanded + 1 } := by
  have hlt := (List.getElem?_eq_some_iff.1 hn).1
  obtain ⟨horderly, hmarks, htallies⟩ := h
  refine ⟨horderly, ⟨hmarks.nodes, hmarks.waiting⟩, ?_⟩
  refine ⟨⟨htallies.sound.within, htallies.sound.waiting, htallies.sound.dynamic,
    htallies.sound.failures⟩, hlt, htallies.batched_le, htallies.shown_le, htallies.listed,
    htallies.failsOnce, htallies.failed, fun m => ?_, htallies.searched, htallies.shown⟩
  rw [htallies.expanded m]
  show (∃ i, s.nodes[i]? = some m ∧ _) ↔ ∃ i, s.nodes[i]? = some m ∧ _
  refine exists_congr fun i => and_congr_right fun hi => ?_
  by_cases him : i = s.expanded
  · subst him
    obtain rfl : n = m := Option.some.inj (hn.symm.trans hi)
    unfold cursor
    split <;> simp
  · have hrest : (i, m) ∉ if sys.isDeferred n then [] else [(s.expanded, n)] := by
      split <;> simp [him]
    unfold cursor
    split <;> simp [hrest]
    omega

/-- Passing the next node keeps state and journal in agreement. -/
theorem passNext {events : Array (Event N)} (h : Accurate sys [] events.toList s)
    (hn : s.nodes[s.expanded]? = some n) :
    Accurate sys [] (if sys.isDeferred n then events else events.push (.expand n)).toList
      (s.passNext sys n) := by
  have hpass := h.pass hn
  unfold Analysis.passNext
  split
  · next hd =>
    rw [if_pos hd] at hpass
    exact hpass
  · next hd =>
    rw [if_neg hd] at hpass
    rw [Array.toList_push]
    refine hpass.expandNode hn ?_ List.not_mem_nil
    rw [cursor, if_neg hd]
    exact Nat.lt_succ_self _

/-- Draining enters what it expands, also if the fuel runs out. -/
theorem drain {events : Array (Event N)} (h : Accurate sys [] events.toList s) (fuel : Nat) :
    Orderly sys ((drain sys.journaled fuel s).run events).2.toList ∧
      ∀ s', (Analysis.drain sys fuel s).value = some s' →
        Accurate sys [] ((Analysis.drain sys.journaled fuel s).run events).2.toList s' ∧
          s'.expanded = s'.nodes.length := by
  induction fuel generalizing s events with
  | zero =>
    cases hn : s.nodes[s.expanded]? with
    | none =>
      rw [run_drain_journaled_of_none sys hn, value_drain_of_none _ hn]
      exact ⟨h.orderly, fun s' hs' => Option.some.inj hs' ▸
        ⟨h, Nat.le_antisymm h.tallies.expanded_le (List.getElem?_eq_none_iff.1 hn)⟩⟩
    | some n =>
      rw [run_drain_journaled_zero sys hn, value_drain_zero hn]
      exact ⟨h.orderly, nofun⟩
  | succ fuel ih =>
    cases hn : s.nodes[s.expanded]? with
    | none =>
      rw [run_drain_journaled_of_none sys hn, value_drain_of_none _ hn]
      exact ⟨h.orderly, fun s' hs' => Option.some.inj hs' ▸
        ⟨h, Nat.le_antisymm h.tallies.expanded_le (List.getElem?_eq_none_iff.1 hn)⟩⟩
    | some n =>
      rw [run_drain_journaled_succ sys hn, value_drain_succ fuel hn]
      exact ih (h.passNext hn)

omit [Inhabited σ] in
/-- No deferred node is pending twice. -/
theorem nodup_pending (sys : NodeSystem N ε σ) (s : Analysis N ε) : (s.pending sys).Nodup := by
  refine List.Nodup.filterMap ?_ (List.Nodup.of_map Prod.snd ?_)
  · rintro ⟨n, i⟩ ⟨m, j⟩ p hp hq
    simp only [Option.mem_def, Option.ite_none_right_eq_some, Option.some.injEq] at hp hq
    obtain ⟨-, rfl⟩ := hp
    obtain ⟨-, hq⟩ := hq
    cases hq
    rfl
  · rw [List.zipIdx_map_snd]
    exact List.nodup_range'

/-- The deferred nodes are about to be expanded. -/
theorem startBatch (h : Accurate sys [] events s) :
    Accurate sys (s.pending sys) events { s with batched := s.graph.size } := by
  obtain ⟨horderly, hmarks, htallies⟩ := h
  refine ⟨horderly, ⟨hmarks.nodes, hmarks.waiting⟩, ?_⟩
  refine ⟨⟨htallies.sound.within, htallies.sound.waiting, htallies.sound.dynamic,
    htallies.sound.failures⟩, htallies.expanded_le, Nat.le_of_eq s.size_graph, htallies.shown_le,
    htallies.listed, htallies.failsOnce, htallies.failed, fun m => ?_, htallies.searched,
    htallies.shown⟩
  rw [htallies.expanded m]
  show (∃ i, s.nodes[i]? = some m ∧ _) ↔ ∃ i, s.nodes[i]? = some m ∧ _
  refine exists_congr fun i => and_congr_right fun hi => ?_
  have hlt := (List.getElem?_eq_some_iff.1 hi).1
  rw [mem_pending, cursor, cursor]
  have hsize := s.size_graph
  split
  · next hd => simp only [hi, hd]; simp; omega
  · next hd => simp [hd]

/-- Expanding nodes that are due, one after the other. -/
theorem expandAll {batch : List (Nat × N)} (h : Accurate sys batch events s)
    (hbatch : ∀ p ∈ batch, s.nodes[p.1]? = some p.2 ∧ p.1 < s.cursor sys p.2)
    (hnodup : batch.Nodup) :
    Accurate sys [] (events ++ batch.map fun p => .expand p.2)
      (batch.foldl (fun s p => (s.expandNode sys p.1 p.2).value) s) := by
  induction batch generalizing s events with
  | nil => exact (List.append_nil events).symm ▸ h
  | cons p batch ih =>
    obtain ⟨hn, hcursor⟩ := hbatch p List.mem_cons_self
    obtain ⟨hp, hnodup⟩ := List.nodup_cons.1 hnodup
    rw [List.map_cons, ← List.singleton_append, ← List.append_assoc]
    have hext := (expandNode_spec sys s hn).1
    refine ih (h.expandNode hn hcursor hp) (fun q hq => ?_) hnodup
    obtain ⟨hq, hlt⟩ := hbatch q (List.mem_cons_of_mem _ hq)
    refine ⟨hext.getElem? hq, ?_⟩
    unfold cursor at hlt ⊢
    rwa [hext.batched, hext.expanded]

end Accurate

/-! ## A round of searches -/

section Searches

variable {sys : NodeSystem N ε σ} {events : List (Event N)} {s : Analysis N ε} {ids : List Nat}
  {i : Nat} {n : N}

omit [Inhabited σ] in
/-- A node is searched if it has not failed and there is something that it has not seen. -/
theorem searchAt?_eq_some {e : Event N} : s.searchAt? i = some e ↔ ∃ n, s.nodes[i]? = some n ∧
    s.graph.hasFailed i = false ∧ s.seen i ≠ s.nodes.length ∧
      e = .search n (s.nodes.drop (s.seen i)) := by
  unfold searchAt?
  split
  · next h =>
    refine ⟨nofun, ?_⟩
    rintro ⟨n, -, hfailed, hseen, -⟩
    rcases h with h | h
    · exact absurd h hseen
    · exact absurd (h.symm.trans hfailed) nofun
  · next h =>
    rw [not_or, Bool.not_eq_true] at h
    rw [Option.map_eq_some_iff]
    constructor
    · rintro ⟨n, hn, rfl⟩
      exact ⟨n, hn, h.2, h.1, rfl⟩
    · rintro ⟨n, hn, -, -, rfl⟩
      exact ⟨n, hn, rfl⟩

/-- A look finds what the search finds that is entered for it. -/
theorem value_look_eq_some (hn : s.nodes[i]? = some n) {r : Except ε (List (Edge N))} :
    (look sys s i).value = some r ↔
      s.searchAt? i = some (.search n (s.nodes.drop (s.seen i))) ∧
        r = (sys.search n (s.nodes.drop (s.seen i))).value := by
  rw [value_look, searchAt?, hn]
  split
  · simp
  · simp [eq_comm]

/-- Where no search is written down, none is made. -/
theorem value_look_eq_none (sys : NodeSystem N ε σ) (h : s.searchAt? i = none) :
    (look sys s i).value = none := by
  rw [value_look]
  unfold searchAt? at h
  split at h
  · next hcond => rw [if_pos hcond]
  · next hcond =>
    rw [if_neg hcond, Option.map_eq_none_iff.1 h]
    rfl

/-- In a round of searches each node that has not failed is shown what it has not seen. -/
theorem flatten_windows_searches (hids : ids.Nodup) (hn : s.nodes[i]? = some n) :
    (windows (ids.filterMap s.searchAt?) n).flatten =
      if i ∈ ids ∧ s.graph.hasFailed i = false then s.nodes.drop (s.seen i) else [] := by
  induction ids with
  | nil => simp [windows]
  | cons j ids ih =>
    obtain ⟨hj, hids⟩ := List.nodup_cons.1 hids
    have happend : (j :: ids).filterMap s.searchAt? =
        (s.searchAt? j).toList ++ ids.filterMap s.searchAt? := by
      rw [List.filterMap_cons]
      cases s.searchAt? j <;> rfl
    rw [happend, windows_append, List.flatten_append, ih hids]
    -- no position comes twice, so that `n` is shown something at most once
    by_cases hij : i = j
    · subst hij
      rw [if_neg fun h => hj h.1, List.append_nil]
      cases hsearch : s.searchAt? i with
      | none =>
        by_cases hfailed : s.graph.hasFailed i = false
        · have hseen : s.seen i = s.nodes.length := by
            by_contra hseen
            have := searchAt?_eq_some.2 ⟨n, hn, hfailed, hseen, rfl⟩
            rw [hsearch] at this
            cases this
          simp [hfailed, hseen, windows]
        · simp [hfailed, windows]
      | some e =>
        obtain ⟨m, hm, hfailed, -, rfl⟩ := searchAt?_eq_some.1 hsearch
        obtain rfl : n = m := Option.some.inj (hn.symm.trans hm)
        simp [hfailed, windows]
    · have hnone : windows (s.searchAt? j).toList n = [] := by
        cases hsearch : s.searchAt? j with
        | none => rfl
        | some e =>
          obtain ⟨m, hm, -, -, rfl⟩ := searchAt?_eq_some.1 hsearch
          have hmn : (m == n) = false := by
            rw [beq_eq_false_iff_ne]
            rintro rfl
            exact hij (s.eq_of_getElem?_nodes hn hm)
          simp [windows, hmn]
      simp [hnone, hij]

omit [Inhabited σ] in
/-- The searches of a round are those of the nodes that have not seen everything and have not
failed. -/
theorem mem_searches {shown : List N} : .search n shown ∈ ids.filterMap s.searchAt? ↔
    ∃ i ∈ ids, s.nodes[i]? = some n ∧ s.graph.hasFailed i = false ∧ s.seen i ≠ s.nodes.length ∧
      shown = s.nodes.drop (s.seen i) := by
  simp only [List.mem_filterMap, searchAt?_eq_some, Event.search.injEq]
  constructor
  · rintro ⟨i, hi, m, hm, hfailed, hseen, rfl, hshown⟩
    exact ⟨i, hi, hm, hfailed, hseen, hshown⟩
  · rintro ⟨i, hi, hn, hfailed, hseen, hshown⟩
    exact ⟨i, hi, n, hn, hfailed, hseen, rfl, hshown⟩

omit [Inhabited σ] in
/-- No search is an expansion. -/
theorem expand_not_mem_searches : .expand n ∉ ids.filterMap s.searchAt? := by
  intro h
  obtain ⟨i, -, hi⟩ := List.mem_filterMap.1 h
  obtain ⟨m, -, -, -, he⟩ := searchAt?_eq_some.1 hi
  cases he

/-- A round of searches makes those nodes fail whose searches fail. -/
theorem fails_searches (hn : s.nodes[i]? = some n) :
    Fails sys (events ++ ids.filterMap s.searchAt?) n ↔ Fails sys events n ∨
      i ∈ ids ∧ ∃ error, (look sys s i).value = some (.error error) := by
  constructor
  · rintro (⟨hmem, herror⟩ | ⟨shown, error, hmem, herror⟩)
    · exact .inl (.inl ⟨(List.mem_append.1 hmem).resolve_right expand_not_mem_searches, herror⟩)
    · rcases List.mem_append.1 hmem with hmem | hmem
      · exact .inl (.inr ⟨shown, error, hmem, herror⟩)
      · obtain ⟨j, hj, hjn, hfailed, hseen, rfl⟩ := mem_searches.1 hmem
        obtain rfl := s.eq_of_getElem?_nodes hn hjn
        have hsearch := searchAt?_eq_some.2 ⟨n, hn, hfailed, hseen, rfl⟩
        exact .inr ⟨hj, error, (value_look_eq_some hn).2 ⟨hsearch, herror.symm⟩⟩
  · rintro (h | ⟨hi, error, hlook⟩)
    · exact h.mono fun _ => List.mem_append_left _
    · obtain ⟨hsearch, herror⟩ := (value_look_eq_some hn).1 hlook
      exact .inr ⟨_, error, List.mem_append_right _ (List.mem_filterMap.2 ⟨i, hi, hsearch⟩),
        herror.symm⟩

/-- Searching is due for each dynamic node once. -/
theorem Accurate.orderly_searches (h : Accurate sys [] events s) (hids : ids.Nodup)
    (hdynamic : ∀ i ∈ ids, i ∈ s.dynamic.toList) :
    Orderly sys (events ++ ids.filterMap s.searchAt?) := by
  induction ids using List.reverseRecOn with
  | nil => exact (List.append_nil events).symm ▸ h.orderly
  | append_singleton ids i ih =>
    obtain ⟨hids, -, hdisjoint⟩ := List.nodup_append.1 hids
    have hi : i ∉ ids := fun hmem => hdisjoint i hmem i (List.mem_singleton_self i) rfl
    have horderly := ih hids fun j hj => hdynamic j (List.mem_append_left _ hj)
    rw [List.filterMap_append, ← List.append_assoc]
    cases hsearch : s.searchAt? i with
    | none =>
      simpa [hsearch] using horderly
    | some e =>
      obtain ⟨n, hn, hfailed, -, rfl⟩ := searchAt?_eq_some.1 hsearch
      obtain ⟨m, hm, hd⟩ := (h.tallies.sound.dynamic i).1
        (hdynamic i (List.mem_append_right _ (List.mem_singleton_self i)))
      obtain rfl : n = m := Option.some.inj (hn.symm.trans hm)
      have hmarked : s.nodes <+: markedBy sys (events ++ ids.filterMap s.searchAt?) :=
        h.markedBy_eq ▸ markedBy_mono sys events _
      have hfails : ¬Fails sys events n := by
        rw [← h.tallies.hasFailed_iff hn, hfailed]
        exact Bool.false_ne_true
      have hwindows : (windows (events ++ ids.filterMap s.searchAt?) n).flatten =
          s.nodes.take (s.seen i) := by
        rw [windows_append, List.flatten_append, flatten_windows_searches hids hn,
          if_neg fun h => hi h.1, List.append_nil, h.tallies.shown hn hd hfailed]
      simp only [List.filterMap_cons, hsearch, List.filterMap_nil]
      refine horderly.concat ⟨hmarked.subset (List.mem_of_getElem? hn), hd, ?_, ?_⟩
      · rw [fails_searches hn]
        rintro (hf | ⟨hmem, -⟩)
        · exact hfails hf
        · exact hi hmem
      · rwa [hwindows, List.take_append_drop]

/-- Following what a round of searches found marks what the searches that are entered mark. -/
theorem SameMarks.searches (sys : NodeSystem N ε σ) (s : Analysis N ε) (ids : List Nat)
    {t u : Analysis N ε} (h : t.SameMarks u) (hnodes : s.nodes <+: u.nodes) :
    ((ids.filterMap s.searchAt?).foldl (redo sys) t).SameMarks
      ((ids.map fun id => (id, (look sys s id).value)).foldl (followAnswer sys) u) := by
  induction ids generalizing t u with
  | nil => exact h
  | cons i ids ih =>
    rw [List.map_cons, List.foldl_cons]
    cases hsearch : s.searchAt? i with
    | none =>
      rw [List.filterMap_cons_none hsearch, value_look_eq_none sys hsearch]
      exact ih h hnodes
    | some e =>
      obtain ⟨n, hn, -, -, rfl⟩ := searchAt?_eq_some.1 hsearch
      rw [List.filterMap_cons_some hsearch, List.foldl_cons,
        (value_look_eq_some hn).2 ⟨hsearch, rfl⟩]
      refine ih ?_ (hnodes.trans (followAnswer_extends u _).nodes)
      have hposition : t.graph.position? n = some i := by
        rw [Graph.position?, h.nodes]
        refine (u.graph.nodes.position?_eq_some_iff n i).2 ?_
        rw [u.get?_nodes]
        exact getElem?_of_isPrefix hnodes hn
      simp only [redo, followAnswer]
      cases (sys.search n (s.nodes.drop (s.seen i))).value with
      | error error => exact h
      | ok found =>
        dsimp only
        rw [hposition]
        exact h.applySearch sys i found

/-- The failures that a round of searches records. -/
def failureAt? (sys : NodeSystem N ε σ) (s : Analysis N ε) (i : Nat) : Option (Failure N ε) :=
  match (look sys s i).value with
  | some (.error error) => s.nodes[i]?.map fun n => ⟨i, n, error⟩
  | _ => none

/-- A round of searches records a failure exactly where a search fails. -/
theorem failureAt?_eq_some {f : Failure N ε} : failureAt? sys s i = some f ↔
    f.id = i ∧ s.nodes[i]? = some f.node ∧ (look sys s i).value = some (.error f.error) := by
  unfold failureAt?
  split
  · next error hlook =>
    rw [hlook, Option.map_eq_some_iff]
    constructor
    · rintro ⟨n, hn, rfl⟩
      exact ⟨rfl, hn, rfl⟩
    · rintro ⟨rfl, hn, herror⟩
      cases herror
      exact ⟨_, hn, rfl⟩
  · next hlook =>
    refine ⟨nofun, ?_⟩
    rintro ⟨-, -, herror⟩
    exact absurd herror (hlook _)

/-- The state after a round of searches in which only the failures are recorded. -/
def recordSearches (sys : NodeSystem N ε σ) (s : Analysis N ε) : Analysis N ε :=
  (s.dynamic.toList.map fun id => (id, (look sys s id).value)).foldl recordAnswer
    { s with shown := s.graph.size }

/-- Recording answers adds the failures among them in order. -/
theorem failures_recordAnswers (sys : NodeSystem N ε σ) (s : Analysis N ε) (ids : List Nat)
    {t : Analysis N ε} (hnodes : t.nodes = s.nodes) :
    ((ids.map fun id => (id, (look sys s id).value)).foldl recordAnswer t).failures =
        t.failures ++ ids.filterMap (failureAt? sys s) := by
  induction ids generalizing t with
  | nil => simp
  | cons i ids ih =>
    rw [List.map_cons, List.foldl_cons]
    cases hfailure : failureAt? sys s i with
    | none =>
      have hrecord : t.recordAnswer (i, (look sys s i).value) = t := by
        unfold recordAnswer
        split
        · next error hlook =>
          obtain ⟨n, hn, -⟩ := look_eq_some hlook
          have hsome := (failureAt?_eq_some (f := ⟨i, n, error⟩)).2 ⟨rfl, hn, hlook⟩
          rw [hfailure] at hsome
          cases hsome
        · rfl
      rw [List.filterMap_cons_none hfailure, hrecord, ih hnodes]
    | some f =>
      obtain ⟨rfl, hn, hlook⟩ := failureAt?_eq_some.1 hfailure
      rw [List.filterMap_cons_some hfailure, hlook]
      show (List.foldl recordAnswer (t.fail f.id f.error) _).failures = _
      rw [ih ((nodes_fail t f.id f.error).trans hnodes), failures_fail t f.error (hnodes ▸ hn),
        List.append_assoc]
      rfl

/-- A round of searches adds its failures after those before. -/
theorem failures_recordSearches (sys : NodeSystem N ε σ) (s : Analysis N ε) :
    (s.recordSearches sys).failures =
      s.failures ++ s.dynamic.toList.filterMap (failureAt? sys s) :=
  failures_recordAnswers sys s s.dynamic.toList rfl

/-- Recording failures changes nothing else that is entered. -/
theorem recordSearches_spec (sys : NodeSystem N ε σ) (s : Analysis N ε) :
    Extends { s with shown := s.graph.size } (s.recordSearches sys) ∧
      (s.recordSearches sys).nodes = s.nodes ∧ (s.recordSearches sys).dynamic = s.dynamic ∧
      s.SameMarks (s.recordSearches sys) := by
  refine List.foldlRecOn (motive := fun t => Extends { s with shown := s.graph.size } t ∧
    t.nodes = s.nodes ∧ t.dynamic = s.dynamic ∧ s.SameMarks t) _ recordAnswer
    ⟨.refl _, rfl, rfl, ⟨rfl, rfl⟩⟩ ?_
  rintro t ⟨hext, hnodes, hdynamic, hmarks⟩ a -
  refine ⟨hext.trans (recordAnswer_extends t a), ?_⟩
  unfold recordAnswer
  split
  · exact ⟨(nodes_fail t _ _).trans hnodes, (dynamic_fail t _ _).trans hdynamic,
      hmarks.trans (.fail t _ _)⟩
  · exact ⟨hnodes, hdynamic, hmarks⟩

/-- After the failures of a round of searches were recorded, what a state holds still has a
reason. -/
theorem Tallies.sound_recordSearches {rest : List (Nat × N)} (h : Tallies sys rest events s) :
    Sound sys (fun _ => True) (s.recordSearches sys) := by
  refine Sound.recordAnswers (s := { s with shown := s.graph.size })
    ⟨h.sound.within, h.sound.waiting, h.sound.dynamic, h.sound.failures⟩ _ ?_
  intro i error n hmem hn
  obtain ⟨j, -, heq⟩ := List.mem_map.1 hmem
  obtain ⟨rfl, hlook⟩ := Prod.mk.inj heq
  have hn : s.nodes[j]? = some n := hn
  exact ⟨_, fun _ _ => trivial, ((value_look_eq_some hn).1 hlook).2.symm⟩

/-- A node that fails in a round of searches has not failed before, and it is listed once. -/
theorem Tallies.failsOnce_recordSearches (h : Tallies sys [] events s) :
    ((s.recordSearches sys).failures.map (·.id)).Nodup := by
  rw [failures_recordSearches, List.map_append, List.map_filterMap]
  refine List.nodup_append.2 ⟨h.failsOnce, h.listed.filterMap ?_, ?_⟩
  · intro i j k hi hj
    obtain ⟨f, hf, rfl⟩ := Option.map_eq_some_iff.1 hi
    obtain ⟨g, hg, hid⟩ := Option.map_eq_some_iff.1 hj
    rw [← (failureAt?_eq_some.1 hf).1, ← (failureAt?_eq_some.1 hg).1, hid]
  · rintro i hi j hj rfl
    obtain ⟨f, hf, hid⟩ := List.mem_map.1 hi
    obtain ⟨j, -, hj⟩ := List.mem_filterMap.1 hj
    obtain ⟨g, hg, rfl⟩ := Option.map_eq_some_iff.1 hj
    obtain ⟨rfl, -, hlook⟩ := failureAt?_eq_some.1 hg
    obtain ⟨-, -, hfailed, -⟩ := look_eq_some hlook
    exact absurd (hfailed.symm.trans ((s.hasFailed_iff _).2 ⟨f, hf, hid⟩)) nofun

/-- The failures of a round of searches are those of the searches that are entered. -/
theorem Tallies.failed_recordSearches (h : Tallies sys [] events s) (n : N) :
    (∃ f ∈ (s.recordSearches sys).failures, f.node = n) ↔
      Fails sys (events ++ s.dynamic.toList.filterMap s.searchAt?) n := by
  rw [failures_recordSearches]
  constructor
  · rintro ⟨f, hf, rfl⟩
    rcases List.mem_append.1 hf with hf | hf
    · exact ((h.failed f.node).1 ⟨f, hf, rfl⟩).mono fun _ => List.mem_append_left _
    · obtain ⟨i, hi, hf⟩ := List.mem_filterMap.1 hf
      obtain ⟨rfl, hn, hlook⟩ := failureAt?_eq_some.1 hf
      exact (fails_searches hn).2 (.inr ⟨hi, f.error, hlook⟩)
  · intro hfails
    have hnode : ∃ i : Nat, s.nodes[i]? = some n := by
      rcases hfails with ⟨hmem, -⟩ | ⟨shown, error, hmem, -⟩
      · exact List.mem_iff_getElem?.1
          (h.mem_nodes ((List.mem_append.1 hmem).resolve_right expand_not_mem_searches))
      · rcases List.mem_append.1 hmem with hmem | hmem
        · exact List.mem_iff_getElem?.1 (h.mem_nodes (h.searched hmem))
        · obtain ⟨i, -, hn, -⟩ := mem_searches.1 hmem
          exact ⟨i, hn⟩
    obtain ⟨i, hn⟩ := hnode
    rcases (fails_searches hn).1 hfails with hfails | ⟨hi, error, hlook⟩
    · obtain ⟨f, hf, hnode⟩ := (h.failed n).2 hfails
      exact ⟨f, List.mem_append_left _ hf, hnode⟩
    · exact ⟨⟨i, n, error⟩, List.mem_append_right _ (List.mem_filterMap.2
        ⟨i, hi, failureAt?_eq_some.2 ⟨rfl, hn, hlook⟩⟩), rfl⟩

/-- After a round of searches every dynamic node has seen all nodes or has failed. -/
theorem Tallies.recordSearches (h : Tallies sys [] events s)
    (hall : ∀ n ∈ s.nodes, .expand n ∈ events) :
    Tallies sys [] (events ++ s.dynamic.toList.filterMap s.searchAt?) (s.recordSearches sys) := by
  obtain ⟨hext, hnodes, hdynamic, -⟩ := recordSearches_spec sys s
  have hshown : (s.recordSearches sys).shown = s.nodes.length := hext.shown.trans s.size_graph
  refine ⟨h.sound_recordSearches, ?_, ?_, ?_, ?_, h.failsOnce_recordSearches,
    h.failed_recordSearches, fun n => ?_, ?_, ?_⟩
  · rw [hext.expanded, hnodes]
    exact h.expanded_le
  · rw [hext.batched, hnodes]
    exact h.batched_le
  · rw [hshown, hnodes]
  · rw [hdynamic]
    exact h.listed
  · rw [List.mem_append, or_iff_left expand_not_mem_searches, hnodes, hext.cursor_eq]
    exact h.expanded n
  · intro n shown hmem
    rcases List.mem_append.1 hmem with hmem | hmem
    · exact List.mem_append_left _ (h.searched hmem)
    · obtain ⟨i, -, hn, -⟩ := mem_searches.1 hmem
      exact List.mem_append_left _ (hall n (List.mem_of_getElem? hn))
  · intro i n hn hd hfailed
    rw [hnodes] at hn ⊢
    have hfailed' : s.graph.hasFailed i = false := hext.hasFailed_eq_false hfailed
    have hseen : (s.recordSearches sys).seen i = s.nodes.length := by
      rw [seen, hshown, if_pos (List.getElem?_eq_some_iff.1 hn).1]
    have hi := (h.sound.dynamic i).2 ⟨n, hn, hd⟩
    rw [windows_append, List.flatten_append, h.shown hn hd hfailed',
      flatten_windows_searches h.listed hn, if_pos ⟨hi, hfailed'⟩, List.take_append_drop, hseen,
      List.take_length]

/-- A round of searches, once all nodes are expanded. -/
theorem Accurate.searchAll (h : Accurate sys [] events s)
    (hall : ∀ n ∈ s.nodes, .expand n ∈ events) :
    Accurate sys [] (events ++ s.dynamic.toList.filterMap s.searchAt?) (s.searchAll sys).value := by
  obtain ⟨-, hnodes, -, hmarks⟩ := recordSearches_spec sys s
  have hvalue : (s.searchAll sys).value =
      (s.dynamic.toList.map fun id => (id, (look sys s id).value)).foldl (followAnswer sys)
        (s.recordSearches sys) := by
    rw [value_searchAll, applyAnswers_eq]
    rfl
  rw [hvalue]
  refine ⟨h.orderly_searches h.tallies.listed fun _ hi => hi, ?_, ?_⟩
  · rw [replay_append]
    exact (h.marks.trans hmarks).searches sys s _ (hnodes ▸ List.prefix_rfl)
  · have htallies := h.tallies.recordSearches hall
    refine htallies.marked (extends_foldl _ followAnswer_extends _ _) ?_ ?_
    · exact htallies.sound.followAnswers sys.closed_true _ fun _ _ _ => trivial
    · intro P hP hs
      refine List.foldlRecOn _ _ hs fun t ht a _ => ?_
      unfold followAnswer
      split
      · exact hP.applySearch ht _ _
      · exact ht

end Searches

/-! ## Rounds and runs -/

/-- The nodes that wait to be expanded one after the other. -/
def worklist (sys : NodeSystem N ε σ) (s : Analysis N ε) : List N :=
  (s.graph.since s.expanded).filter fun n => !sys.isDeferred n

/-- Nothing is left to do: all marked nodes are expanded, and those dynamic nodes that have not failed
have seen all of them. -/
structure Settled (sys : NodeSystem N ε σ) (events : List (Event N)) (s : Analysis N ε) : Prop where
  expansions : (expansions events).Perm s.nodes
  worklist : s.worklist sys = []
  deferred : s.pending sys = []
  shows : ∀ n ∈ s.nodes, sys.isDynamic n = true → (∀ f ∈ s.failures, f.node ≠ n) →
    (windows events n).flatten = s.nodes

namespace Accurate

variable {sys : NodeSystem N ε σ} {events : List (Event N)} {s s' : Analysis N ε}

/-- If the cursors are at the end, all nodes are expanded. -/
theorem expand_mem (h : Accurate sys [] events s) (hexpanded : s.expanded = s.nodes.length)
    (hbatched : s.batched = s.nodes.length) {n : N} (hn : n ∈ s.nodes) : .expand n ∈ events := by
  obtain ⟨i, hi⟩ := List.mem_iff_getElem?.1 hn
  have hlt := (List.getElem?_eq_some_iff.1 hi).1
  refine (h.tallies.expanded n).2 ⟨i, hi, ?_, List.not_mem_nil⟩
  unfold cursor
  split <;> omega

/-- If the cursors have passed all marked nodes, nothing is left to do. -/
theorem settled (h : Accurate sys [] events s) (hexpanded : s.expanded = s.nodes.length)
    (hbatched : s.batched = s.nodes.length) (hshown : s.shown = s.nodes.length) :
    Settled sys events s where
  expansions := by
    refine (List.perm_ext_iff_of_nodup h.orderly.expandsOnce s.nodup_nodes).2 fun n => ?_
    rw [mem_expansions]
    exact ⟨h.tallies.mem_nodes, h.expand_mem hexpanded hbatched⟩
  worklist := by rw [worklist, since_eq_drop, hexpanded, List.drop_length, List.filter_nil]
  deferred := by
    rw [List.eq_nil_iff_forall_not_mem]
    rintro ⟨i, n⟩ hmem
    obtain ⟨hi, hle, -⟩ := mem_pending.1 hmem
    have hlt := (List.getElem?_eq_some_iff.1 hi).1
    omega
  shows n hn hd hfailed := by
    obtain ⟨i, hi⟩ := List.mem_iff_getElem?.1 hn
    have hfailed' : s.graph.hasFailed i = false := by
      rw [Bool.eq_false_iff, Ne, h.tallies.hasFailed_iff hi, ← h.tallies.failed]
      rintro ⟨f, hf, hnode⟩
      exact hfailed f hf hnode
    rw [h.tallies.shown hi hd hfailed', seen, hshown, if_pos (List.getElem?_eq_some_iff.1 hi).1,
      List.take_length]

/-- What a round enters. -/
theorem recordedRound {events : Array (Event N)} (h : Accurate sys [] events.toList s) (fuel : Nat) :
    Orderly sys ((recordedRound sys.journaled fuel s).run events).2.toList ∧
      ∀ more s', s.round sys fuel = some (more, s') →
        Accurate sys [] ((Analysis.recordedRound sys.journaled fuel s).run events).2.toList s' ∧
        (more = false →
          Settled sys ((Analysis.recordedRound sys.journaled fuel s).run events).2.toList s') := by
  rw [← fst_run_recordedRound_journaled sys fuel s events]
  have hdrain := (h.count fun c => { c with rounds := c.rounds + 1 }).drain fuel
  rw [← fst_run_drain_journaled sys fuel _ events] at hdrain
  rw [Analysis.recordedRound, Recorded.run_bind]
  generalize (Analysis.drain sys.journaled fuel _).run events = r at hdrain
  obtain ⟨answer, events⟩ := r
  cases answer with
  | none =>
    refine ⟨hdrain.1, ?_⟩
    rintro more s' ⟨⟩
  | some s₁ =>
    obtain ⟨h₁, hexpanded⟩ := hdrain.2 s₁ rfl
    have hpending : s₁.pending sys.journaled = s₁.pending sys := rfl
    dsimp only
    rw [hpending]
    -- without pending nodes the round ends with searches, and otherwise with a batch
    cases hempty : (s₁.pending sys).isEmpty with
    | true =>
      have h₂ := h₁.startBatch
      rw [List.isEmpty_iff.1 hempty] at h₂
      have h₃ := h₂.searchAll fun n => h₂.expand_mem hexpanded s₁.size_graph
      obtain ⟨hg, hshown, hexpanded', hbatched, -⟩ :=
        searchAll_spec sys { s₁ with batched := s₁.graph.size }
      simp only [if_true, Recorded.run_bind, Recorded.run_pure, run_searchAll_journaled,
        toList_noteAll]
      refine ⟨h₃.orderly, ?_⟩
      rintro more s' ⟨⟩
      refine ⟨h₃, fun hmore => ?_⟩
      rw [decide_eq_false_iff_not, size_graph, size_graph] at hmore
      have hlength : (Analysis.searchAll sys { s₁ with batched := s₁.graph.size }).value.nodes.length =
          s₁.nodes.length := Nat.le_antisymm (Nat.le_of_not_lt hmore) hg.length_le
      exact h₃.settled (hexpanded'.trans (hexpanded.trans hlength.symm))
        (hbatched.trans (s₁.size_graph.trans hlength.symm)) (hshown.trans hlength.symm)
    | false =>
      have hdue : ∀ p ∈ s₁.pending sys, s₁.nodes[p.1]? = some p.2 ∧
          p.1 < cursor sys { s₁ with batched := s₁.graph.size } p.2 := by
        intro p hp
        obtain ⟨hn, -, hd⟩ := mem_pending.1 hp
        refine ⟨hn, ?_⟩
        rw [cursor, if_pos hd, s₁.size_graph]
        exact (List.getElem?_eq_some_iff.1 hn).1
      have h₂ := (h₁.startBatch.count fun c =>
        { c with deferredBatches := c.deferredBatches + 1 }).expandAll hdue (nodup_pending sys s₁)
      simp only [Bool.false_eq_true, if_false, Recorded.run_bind, Recorded.run_pure,
        run_expandBatch_journaled, toList_noteAll]
      rw [expandBatch, Recorded.value_foldlM]
      refine ⟨h₂.orderly, ?_⟩
      rintro more s' ⟨⟩
      exact ⟨h₂, fun hmore => absurd hmore Bool.noConfusion⟩

/-- What a run enters, also if the fuel runs out. -/
theorem run {events : Array (Event N)} (h : Accurate sys [] events.toList s) (fuel : Nat) :
    Orderly sys ((run sys.journaled fuel s).run events).2.toList ∧
      (∀ s', (Analysis.run sys fuel s).value = .finished s' →
        Accurate sys [] ((Analysis.run sys.journaled fuel s).run events).2.toList s' ∧
          Settled sys ((Analysis.run sys.journaled fuel s).run events).2.toList s') ∧
      ∀ s', (Analysis.run sys fuel s).value = .cancelled s' →
        Accurate sys [] ((Analysis.run sys.journaled fuel s).run events).2.toList s' := by
  induction fuel generalizing s events with
  | zero => exact ⟨h.orderly, nofun, nofun⟩
  | succ fuel ih =>
    rw [run_eq_recordedRound, value_run_eq_round]
    by_cases hstop : (s.heedsStop && s.stopRequested) = true
    · rw [if_pos hstop, if_pos hstop]
      refine ⟨h.orderly, nofun, ?_⟩
      rintro s' ⟨⟩
      exact h
    · obtain ⟨horderly, hround⟩ := h.recordedRound fuel
      have hanswer := fst_run_recordedRound_journaled sys fuel s events
      rw [if_neg hstop, if_neg hstop, Recorded.run_bind, hanswer]
      cases hs : s.round sys fuel with
      | none => exact ⟨horderly, nofun, nofun⟩
      | some p =>
        obtain ⟨more, s₁⟩ := p
        obtain ⟨h₁, hsettled⟩ := hround more s₁ hs
        cases more with
        | true => exact ih h₁
        | false =>
          refine ⟨horderly, ?_, nofun⟩
          rintro s' ⟨⟩
          exact ⟨h₁, hsettled rfl⟩

end Accurate

end Analysis

/-! ## What happens to a marking -/

/-- A marking with its journal. -/
structure Log (N ε : Type) [BEq N] [LawfulBEq N] [Hashable N] where
  /-- The marking. -/
  analysis : Analysis N ε := {}
  /-- The journal. -/
  events : Array (Event N) := #[]

namespace Log

/-- The journal after a run. -/
def eventsOfRun (sys : NodeSystem N ε σ) (l : Log N ε) (fuel : Nat) : Array (Event N) :=
  ((l.analysis.run sys.journaled fuel).run l.events).2

/-- The journal after a round. -/
def eventsOfRound (sys : NodeSystem N ε σ) (l : Log N ε) (fuel : Nat) : Array (Event N) :=
  ((l.analysis.recordedRound sys.journaled fuel).run l.events).2

/-- What may happen to a marking. -/
inductive Step (sys : NodeSystem N ε σ) : Log N ε → Log N ε → Prop
  /-- A root is added. -/
  | addRoot (l : Log N ε) (n : N) (label : String) :
      Step sys l ⟨l.analysis.addRoot sys n label, l.events.push (.root n label)⟩
  /-- A run is made, which is finished or cancelled. -/
  | run (l : Log N ε) (fuel : Nat) {s : Analysis N ε} :
      (l.analysis.run sys fuel).value = .finished s ∨
        (l.analysis.run sys fuel).value = .cancelled s →
      Step sys l ⟨s, l.eventsOfRun sys fuel⟩
  /-- A run is stopped after a round, whoever asked for it. -/
  | round (l : Log N ε) (fuel : Nat) {more : Bool} {s : Analysis N ε} :
      l.analysis.round sys fuel = some (more, s) → Step sys l ⟨s, l.eventsOfRound sys fuel⟩
  /-- A request to stop is made or withdrawn. -/
  | signal (l : Log N ε) (heeds asked : Bool) :
      Step sys l { l with
        analysis := { l.analysis with heedsStop := heeds, stopRequested := asked } }

/-- What can happen to a marking. -/
def Leads (sys : NodeSystem N ε σ) : Log N ε → Log N ε → Prop :=
  Relation.ReflTransGen (Step sys)

variable {sys : NodeSystem N ε σ} {l l' : Log N ε}

/-- The state and the journal of a marking agree. -/
def Accurate (sys : NodeSystem N ε σ) (l : Log N ε) : Prop :=
  l.analysis.Accurate sys [] l.events.toList

/-- Whatever happens to a marking keeps state and journal in agreement. -/
theorem Accurate.step (h : l.Accurate sys) (hstep : Step sys l l') : l'.Accurate sys := by
  cases hstep with
  | addRoot n label =>
    have hroot := Analysis.Accurate.addRoot h n label
    rwa [← Array.toList_push] at hroot
  | run fuel hrun =>
    obtain ⟨-, hfinished, hcancelled⟩ := Analysis.Accurate.run h fuel
    rcases hrun with hrun | hrun
    · exact (hfinished _ hrun).1
    · exact hcancelled _ hrun
  | round fuel hround => exact ((Analysis.Accurate.recordedRound h fuel).2 _ _ hround).1
  | signal heeds asked => exact ⟨h.orderly, ⟨h.marks.nodes, h.marks.waiting⟩, h.tallies.signal _ _⟩

/-- However a marking was reached, its state and its journal agree. -/
theorem accurate_of_leads (h : Leads sys {} l) : l.Accurate sys := by
  induction h with
  | refl => exact Analysis.Accurate.fresh sys
  | tail _ hstep ih => exact ih.step hstep

/-- Whatever was done to a marking, each node is processed once.  No node is expanded twice or before
it was marked, and each node fails at most once; what a dynamic node is shown, search by search, is
one stretch of the marked nodes after the other, and it is shown nothing after it failed.  This holds
at any time of a further run too, and when that run is finished nothing is left: all marked nodes are
expanded, and each dynamic node has failed or has been shown all of them. -/
theorem processed_once (h : Leads sys {} l) :
    Orderly sys l.events.toList ∧
    markedBy sys l.events.toList = l.analysis.nodes ∧
    (l.analysis.failures.map (·.node)).Nodup ∧
    (∀ n, (∃ f ∈ l.analysis.failures, f.node = n) ↔ Fails sys l.events.toList n) ∧
    ∀ fuel,
      ((l.analysis.run sys.journaled fuel).run l.events).1 = (l.analysis.run sys fuel).value ∧
      Orderly sys (l.eventsOfRun sys fuel).toList ∧
      (∀ s, (l.analysis.run sys fuel).value = .finished s →
        s.Settled sys (l.eventsOfRun sys fuel).toList) ∧
      ∀ s, l.analysis.round sys fuel = some (false, s) →
        s.Settled sys (l.eventsOfRound sys fuel).toList := by
  have haccurate := accurate_of_leads h
  refine ⟨haccurate.orderly, haccurate.markedBy_eq, haccurate.tallies.nodup_failures,
    haccurate.tallies.failed, fun fuel => ?_⟩
  obtain ⟨horderly, hfinished, -⟩ := Analysis.Accurate.run haccurate fuel
  refine ⟨Analysis.fst_run_journaled sys fuel _ _, horderly, fun s hs => (hfinished s hs).2,
    fun s hs => ?_⟩
  exact ((Analysis.Accurate.recordedRound haccurate fuel).2 _ _ hs).2 rfl

end Log

namespace Analysis

/-- In `branching` the deferred node is shown all nodes that are marked in the end, and all of them
are expanded once. -/
theorem processed_once_branching : ∃ (l : Log Nat String) (fuel : Nat) (s : Analysis Nat String),
    Log.Leads branching {} l ∧ (l.analysis.run branching fuel).value = .finished s ∧
    (∀ n, n ∈ s.nodes ↔ n ∈ [0, 1, 2, 3]) ∧
    (expansions (l.eventsOfRun branching fuel).toList).Perm s.nodes ∧
    (windows (l.eventsOfRun branching fuel).toList 1).flatten = s.nodes := by
  obtain ⟨s, fuel, hfinished, hnodes⟩ := exists_finished_branching
  let l : Log Nat String := ⟨({} : Analysis Nat String).addRoot branching 0 "start",
    #[.root 0 "start"]⟩
  have hleads : Log.Leads branching {} l := .single (.addRoot {} 0 "start")
  have hsettled := ((Log.processed_once hleads).2.2.2.2 fuel).2.2.1 s hfinished
  -- neither expanding the deferred node nor its searches fail
  have hfailures := (Log.processed_once (hleads.tail (.run l fuel (.inl hfinished)))).2.2.2.1 1
  refine ⟨l, fuel, s, hleads, hfinished, hnodes, hsettled.expansions,
    hsettled.shows 1 ((hnodes 1).2 (by simp)) rfl fun f hf hnode => ?_⟩
  rcases hfailures.1 ⟨f, hf, hnode⟩ with ⟨-, error, herror⟩ | ⟨shown, error, -, herror⟩
  · cases herror
  · cases herror

end Analysis

end AheadOfTime.Marking
