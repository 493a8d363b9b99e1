import AheadOfTime.Proofs.Scan.Vocabulary
import AheadOfTime.Proofs.Ty.Bounded
import Mathlib.Data.Set.Finite.Lattice

/-!
# Every scan ends

Bodies may lead to ever larger instantiations, so that nothing like a finite set of types is given
beforehand.  But declarations, bodies and roots are finitely many, hence all within some bound; and
nothing leads out of what is within it.  As a node that is nested too deep needs nothing, only
finitely many nodes within the bound need others, and together with the roots and what a slot finds
over them these others are all the nodes that a scan can come to.
-/

set_option autoImplicit false

namespace AheadOfTime

open Filter Marking

/-! ## What is put together as it should be -/

/-- Everything that is put together as it should be. -/
def NodeVocabulary.formed : NodeVocabulary where
  type t := t.FormedFrom fun _ => True
  method m := m.FormedFrom fun _ => True
  object t := t.FormedFrom fun _ => True
  field _ := True
  code m := m.FormedFrom fun _ => True
  shadow m := m.FormedFrom fun _ => True
  slot m := m.FormedFrom fun _ => True

/-- What is declared about a type is put together as it should be. -/
structure TypeRecord.Formed (r : TypeRecord) : Prop where
  base : ∀ b ∈ r.base.join, NodeVocabulary.formed.type b
  interfaces : ∀ i ∈ r.interfaces.getD [], NodeVocabulary.formed.type i
  overrides : ∀ o ∈ r.overrides.declared,
    NodeVocabulary.formed.method o.decl ∧ NodeVocabulary.formed.method o.body

/-- The declarations and bodies of a program are put together as they should be. -/
structure Program.Formed (P : Program) : Prop where
  records : ∀ r ∈ P.types.toList, r.Formed
  bodies : ∀ {m : Method} {body : Body}, P.body? m = some body →
    ∀ i ∈ body, NodeVocabulary.formed.HasInstruction i

/-! ## What is within a bound -/

/-- What is made of what is within a bound. -/
def NodeVocabulary.within (B : Bound) : NodeVocabulary :=
  (Alphabet.within B).nodeVocabulary (Method.Within B) fun f =>
    f ∈ B.fields ∧ (Alphabet.within B).decl f.owner

/-- What holds of each item for large enough bounds holds of all items for large enough bounds. -/
theorem Bound.eventually_forall_mem {α : Type} {l : List α} {p : α → Bound → Prop}
    (h : ∀ a ∈ l, ∀ᶠ B in atTop, p a B) : ∀ᶠ B in atTop, ∀ a ∈ l, p a B :=
  (eventually_all_finite l.finite_toSet).2 h

namespace NodeVocabulary

/-- A type that is put together as it should be is within large enough bounds. -/
theorem eventually_type {t : Ty} (ht : formed.type t) : ∀ᶠ B in atTop, (within B).type t :=
  ht.eventually_over

/-- A method that is put together as it should be is within large enough bounds. -/
theorem eventually_method {m : Method} (hm : formed.method m) :
    ∀ᶠ B in atTop, (within B).method m :=
  m.eventually_within.and
    (hm.2.1.eventually_over.and
      (Bound.eventually_forall_mem fun a ha => (hm.2.2 a ha).eventually_over))

/-- A field is within large enough bounds. -/
theorem eventually_field (f : Field) : ∀ᶠ B in atTop, (within B).field f :=
  (Bound.eventually_mem_fields f).and (Alphabet.eventually_decl f.owner)

/-- An operand is within large enough bounds if what it refers to is. -/
theorem eventually_operand {α : Type} {p : α → Prop} {q : Bound → α → Prop}
    (h : ∀ {a : α}, p a → ∀ᶠ B in atTop, q B a) {operand : Operand α} (ho : operand.All p) :
    ∀ᶠ B in atTop, operand.All (q B) := by
  cases operand with
  | known a => exact h ho
  | unknown symbol => exact .of_forall fun _ => trivial

/-- An instruction is within large enough bounds. -/
theorem eventually_hasInstruction {i : Instruction} (hi : formed.HasInstruction i) :
    ∀ᶠ B in atTop, (within B).HasInstruction i := by
  have htype {operand : Operand Ty} (h : operand.All formed.type) :
      ∀ᶠ B in atTop, operand.All (within B).type := eventually_operand eventually_type h
  have hmethod {operand : Operand Method} (h : operand.All formed.method) :
      ∀ᶠ B in atTop, operand.All (within B).method := eventually_operand eventually_method h
  have hfield {operand : Operand Field} (h : operand.All formed.field) :
      ∀ᶠ B in atTop, operand.All (within B).field :=
    eventually_operand (fun _ => eventually_field _) h
  cases i with
  | call m | newobj m | ldftn m | ldvirtftn m => exact hmethod hi
  | callvirt m receiver =>
    refine (hmethod hi.1).and ?_
    cases receiver with
    | none => exact .of_forall fun _ t ht => by cases ht
    | some t =>
      filter_upwards [htype (hi.2 t rfl)] with B hB u hu
      cases hu
      exact hB
  | constrained t m => exact (htype hi.1).and (hmethod hi.2)
  | newarr t | box t | unboxAny t | castclass t | isinst t => exact htype hi
  | ldfld f | ldflda f | stfld f | ldsfld f | ldsflda f | stsfld f => exact hfield hi
  | ldtoken token =>
    cases token with
    | type t => exact htype hi
    | method m => exact hmethod hi
    | field f => exact hfield hi
  | _ => exact .of_forall fun _ => trivial

/-- A root is within large enough bounds. -/
theorem eventually_hasRoot {k : RootKind} (hk : formed.HasRoot k) :
    ∀ᶠ B in atTop, (within B).HasRoot k := by
  cases k with
  | method m | reflectedMethod m => exact eventually_method hk
  | constructed t | reflectedType t => exact eventually_type hk

end NodeVocabulary

namespace Program.Formed

variable {P : Program} (hP : P.Formed)
include hP

/-- Declarations are finitely many, so that a large enough bound has room for them. -/
theorem eventually_describes : ∀ᶠ B in atTop, (Alphabet.within B).Describes (Method.Within B) P := by
  have hmethods := Bound.eventually_forall_mem fun (r : TypeRecord) (_ : r ∈ P.types.toList) =>
    Bound.eventually_forall_mem fun (d : MethodDecl) (_ : d ∈ r.methods) =>
      Bound.eventually_mem_methods d
  have hbase := Bound.eventually_forall_mem fun r hr =>
    Bound.eventually_forall_mem fun b (hb : b ∈ r.base.join.toList) =>
      NodeVocabulary.eventually_type ((hP.records r hr).base b (Option.mem_toList.1 hb))
  have hinterfaces := Bound.eventually_forall_mem fun r hr =>
    Bound.eventually_forall_mem fun i hi =>
      NodeVocabulary.eventually_type ((hP.records r hr).interfaces i hi)
  have hoverrides := Bound.eventually_forall_mem fun r hr =>
    Bound.eventually_forall_mem fun o ho =>
      (NodeVocabulary.eventually_method ((hP.records r hr).overrides o ho).1).and
        (NodeVocabulary.eventually_method ((hP.records r hr).overrides o ho).2)
  filter_upwards [Alphabet.eventually_decl WellKnown.array.decl,
    Alphabet.eventually_decl WellKnown.object.decl, hmethods, hbase, hinterfaces, hoverrides]
    with B harray hobject hmethods hbase hinterfaces hoverrides
  constructor
  · exact harray
  · exact hobject
  · exact fun hm => ⟨hm.1, Nat.zero_le _⟩
  · exact fun hm hm' => ⟨hm.1, hm'.2⟩
  · exact fun σ hm => ⟨hm.1, (List.length_map _).trans_le hm.2⟩
  · intro t m hm
    obtain ⟨⟨d, -, hdecl⟩, -, hargs⟩ := P.mem_methods.1 hm
    refine ⟨?_, by rw [hargs]; exact Nat.zero_le _⟩
    rcases Program.record_mem_or_eq (P := P) d with hr | hr
    · exact hmethods _ hr _ hdecl
    · rw [hr] at hdecl
      cases hdecl
  · exact fun r hr b hb => hbase r hr b (Option.mem_toList.2 hb)
  · exact hinterfaces
  · exact hoverrides

/-- All bodies are within large enough bounds. -/
theorem eventually_bodies : ∀ᶠ B in atTop, ∀ body ∈ { body | ∃ m, P.body? m = some body },
    ∀ i ∈ body, (NodeVocabulary.within B).HasInstruction i := by
  have hfinite : { body | ∃ m, P.body? m = some body }.Finite := by
    refine (P.bodies.toList.map Prod.snd).finite_toSet.subset ?_
    rintro body ⟨m, hbody⟩
    exact List.mem_map.2 ⟨(m.typical, body), Std.HashMap.mem_toList_iff_getElem?_eq_some.2 hbody, rfl⟩
  refine (eventually_all_finite hfinite).2 fun body ⟨m, hbody⟩ => ?_
  exact Bound.eventually_forall_mem fun i hi =>
    NodeVocabulary.eventually_hasInstruction (hP.bodies hbody i hi)

/-- Finitely many roots and a program are within some bound that nothing leads out of. -/
theorem exists_covers {S : Setting} (hS : S.program = P) {roots : List Root}
    (hroots : ∀ r ∈ roots, NodeVocabulary.formed.HasRoot r.kind) :
    ∃ B, (NodeVocabulary.within B).Covers S ∧
      ∀ r ∈ roots, (NodeVocabulary.within B).HasRoot r.kind := by
  subst hS
  have hroots := Bound.eventually_forall_mem fun r hr =>
    NodeVocabulary.eventually_hasRoot (hroots r hr)
  obtain ⟨B, hdescribes, hbodies, hroots⟩ :=
    (hP.eventually_describes.and (hP.eventually_bodies.and hroots)).exists
  refine ⟨B, ?_, hroots⟩
  apply hdescribes.covers_nodeVocabulary
  · trivial
  · exact Nat.zero_le _
  · exact fun m hm => ⟨hm.1, (List.length_map _).trans_le hm.2⟩
  · exact fun f hf => hf.2
  · exact fun hbody => hbodies _ ⟨_, hbody⟩

end Program.Formed

/-! ## Nodes that are nested too deep -/

/-- How deep what a node is about is nested; a field is not nested. -/
def Node.depth : Node → ℕ
  | .constructed t | .typeData t | .statics t | .reflection (.type t) => t.depth
  | .code m | .shadow m | .slot m | .reflection (.method m) => m.depth
  | .reflection (.field _) => 0

namespace Setting

variable {S : Setting}

/-- A type that passes the check is not nested too deep. -/
theorem depth_le_of_checkType {t : Ty} (h : outcome (S.checkType t) = .ok ()) :
    t.depth ≤ S.options.maxDepth := by
  by_contra hdeep
  rw [checkType, if_pos (Nat.lt_of_not_le hdeep)] at h
  cases h

/-- A method that passes the check is not nested too deep. -/
theorem depth_le_of_checkMethod {m : Method} (h : outcome (S.checkMethod m) = .ok ()) :
    m.depth ≤ S.options.maxDepth := by
  by_contra hdeep
  rw [checkMethod, if_pos (Nat.lt_of_not_le hdeep)] at h
  cases h

/-- Whatever needs something is not nested too deep. -/
theorem depth_le_of_expand {n : Node} {x : Expansion Node} (h : outcome (S.expand n) = .ok x) :
    n.depth ≤ S.options.maxDepth := by
  have htype {t : Ty} {q : Unit → Attempt (Expansion Node)}
      (h : outcome (S.checkType t >>= q) = .ok x) : t.depth ≤ S.options.maxDepth := by
    obtain ⟨_, hcheck, -⟩ := bind_eq_ok.1 ((outcome_bind _ _).symm.trans h)
    exact depth_le_of_checkType hcheck
  have hmethod {m : Method} {q : Unit → Attempt (Expansion Node)}
      (h : outcome (S.checkMethod m >>= q) = .ok x) : m.depth ≤ S.options.maxDepth := by
    obtain ⟨_, hcheck, -⟩ := bind_eq_ok.1 ((outcome_bind _ _).symm.trans h)
    exact depth_le_of_checkMethod hcheck
  cases n with
  | constructed t | typeData t | statics t => exact htype h
  | code m =>
    rw [outcome_expand_code] at h
    obtain ⟨_, hcheck, -⟩ := bind_eq_ok.1 h
    exact depth_le_of_checkMethod hcheck
  | shadow m | slot m => exact hmethod h
  | reflection r =>
    cases r with
    | type t => exact htype h
    | method m => exact hmethod h
    | field f => exact Nat.zero_le _

end Setting

/-- Within a bound and up to some depth, there are finitely many nodes. -/
theorem NodeVocabulary.finite_within (B : Bound) (n : ℕ) :
    { k : Node | (within B).HasNode k ∧ k.depth ≤ n }.Finite := by
  have htypes := Ty.finite_withinDepth B (n + 1)
  have hmethods := Method.finite_withinDepth B (n + 1)
  have hfields := B.fields.finite_toSet
  refine Set.Finite.subset
    ((htypes.image Node.constructed).union ((htypes.image Node.typeData).union
      ((htypes.image Node.statics).union ((hmethods.image Node.code).union
        ((hmethods.image Node.shadow).union ((hmethods.image Node.slot).union
          ((htypes.image fun t => .reflection (.type t)).union
            ((hmethods.image fun m => .reflection (.method m)).union
              (hfields.image fun f => .reflection (.field f)))))))))) ?_
  rintro k ⟨hk, hdepth⟩
  have htype {t : Ty} (ht : (within B).type t) (h : t.depth ≤ n) : t ∈ Ty.withinDepth B (n + 1) :=
    ⟨ht, Nat.lt_succ_of_le h⟩
  have hmethod {m : Method} (hm : (within B).method m) (h : m.depth ≤ n) :
      m.Within B ∧ m.owner.Over (.within B) ∧ (∀ a ∈ m.args, a.Over (.within B)) ∧
        m.depth < n + 1 :=
    ⟨hm.1, hm.2.1, hm.2.2, Nat.lt_succ_of_le h⟩
  cases k with
  | constructed t => exact .inl ⟨t, htype hk hdepth, rfl⟩
  | typeData t => exact .inr (.inl ⟨t, htype hk hdepth, rfl⟩)
  | statics t => exact .inr (.inr (.inl ⟨t, htype hk hdepth, rfl⟩))
  | code m => exact .inr (.inr (.inr (.inl ⟨m, hmethod hk hdepth, rfl⟩)))
  | shadow m => exact .inr (.inr (.inr (.inr (.inl ⟨m, hmethod hk hdepth, rfl⟩))))
  | slot m => exact .inr (.inr (.inr (.inr (.inr (.inl ⟨m, hmethod hk hdepth, rfl⟩)))))
  | reflection r =>
    refine .inr (.inr (.inr (.inr (.inr (.inr ?_)))))
    cases r with
    | type t => exact .inl ⟨t, htype hk hdepth, rfl⟩
    | method m => exact .inr (.inl ⟨m, hmethod hk hdepth, rfl⟩)
    | field f => exact .inr (.inr ⟨f, hk.1, rfl⟩)

/-! ## The nodes that roots lead to -/

namespace Setting

/-- The nodes that roots stand for. -/
def startNodes (S : Setting) (roots : List Root) : List Node :=
  roots.flatMap fun r =>
    match outcome (S.rootNodes r.kind) with
    | .ok nodes => nodes
    | .error _ => []

variable {S : Setting} {roots : List Root}

/-- The nodes that a scan starts from are those that its roots stand for. -/
theorem mem_startNodes {n : Node} : n ∈ S.startNodes roots ↔ S.RootNode roots n := by
  unfold startNodes RootNode
  rw [List.mem_flatMap]
  refine exists_congr fun r => and_congr_right fun _ => ?_
  cases outcome (S.rootNodes r.kind) <;> simp

/-- The nodes that a node needs, under a condition or not. -/
def targets (S : Setting) (n : Node) : Set Node :=
  { k | ∃ x, outcome (S.expand n) = .ok x ∧
    (k ∈ x.edges.map (·.target) ∨ k ∈ x.conditional.map (·.target)) }

/-- The nodes that a node finds over another one. -/
def found (S : Setting) (n k : Node) : Set Node :=
  { t | ∃ edges, outcome (S.search n [k]) = .ok edges ∧ t ∈ edges.map (·.target) }

/-- A node needs finitely many nodes. -/
theorem finite_targets (S : Setting) (n : Node) : (S.targets n).Finite := by
  unfold targets
  cases outcome (S.expand n) with
  | error e => simp
  | ok x =>
    refine ((x.edges.map (·.target)).finite_toSet.union
      (x.conditional.map (·.target)).finite_toSet).subset ?_
    rintro k ⟨x', hx', hk⟩
    cases hx'
    exact hk

/-- A node finds finitely many nodes over another one. -/
theorem finite_found (S : Setting) (n k : Node) : (S.found n k).Finite := by
  unfold found
  cases outcome (S.search n [k]) with
  | error e => simp
  | ok edges =>
    refine (edges.map (·.target)).finite_toSet.subset ?_
    rintro t ⟨edges', hedges, ht⟩
    cases hedges
    exact ht

/-- Let the nodes that roots lead to and that are not nested too deep be among finitely many.  Then
the nodes that roots lead to are finitely many themselves: they are roots, or needed by one of these,
or found over one that is. -/
theorem finite_needed_of_finite {K : Set Node} (hK : K.Finite)
    (hmem : ∀ n, S.system.Needed (S.startNodes roots) n → n.depth ≤ S.options.maxDepth → n ∈ K) :
    { n | S.system.Needed (S.startNodes roots) n }.Finite := by
  let near : Set Node := { n | n ∈ S.startNodes roots } ∪ ⋃ n ∈ K, S.targets n
  have hnear : near.Finite :=
    (List.finite_toSet _).union (hK.biUnion fun n _ => S.finite_targets n)
  have hfar : (⋃ n ∈ K, ⋃ k ∈ near, S.found n k).Finite :=
    hK.biUnion fun n _ => hnear.biUnion fun k _ => S.finite_found n k
  refine (hnear.union hfar).subset fun n hn => ?_
  induction hn with
  | root hr => exact .inl (.inl hr)
  | edge hn hx he _ =>
    have hmemK := hmem _ hn (depth_le_of_expand hx)
    exact .inl (.inr (Set.mem_biUnion hmemK ⟨_, hx, .inl (List.mem_map_of_mem he)⟩))
  | conditional hn hx he _ _ _ =>
    have hmemK := hmem _ hn (depth_le_of_expand hx)
    exact .inl (.inr (Set.mem_biUnion hmemK ⟨_, hx, .inr (List.mem_map_of_mem he)⟩))
  | dynamic hn hx _ _ hone he _ ihk =>
    have hmemK := hmem _ hn (depth_le_of_expand hx)
    refine .inr (Set.mem_biUnion hmemK (Set.mem_biUnion ?_ ⟨_, hone, List.mem_map_of_mem he⟩))
    -- what a slot searches are types of which objects exist, and these are never found themselves
    rcases ihk with hk | hk
    · exact hk
    · obtain ⟨m, c, -, rfl, -⟩ := S.exists_of_search_singleton hone he
      obtain ⟨n', -, hk⟩ := Set.mem_iUnion₂.1 hk
      obtain ⟨k', -, edges, hedges, hk⟩ := Set.mem_iUnion₂.1 hk
      obtain ⟨e', he', htarget⟩ := List.mem_map.1 hk
      exact absurd htarget (NodeVocabulary.ne_constructed_of_search hedges he' c)

/-- Roots lead to finitely many nodes. -/
theorem finite_needed (hP : S.program.Formed)
    (hroots : ∀ r ∈ roots, NodeVocabulary.formed.HasRoot r.kind) :
    { n | S.system.Needed (S.startNodes roots) n }.Finite := by
  obtain ⟨B, hV, hroots⟩ := hP.exists_covers rfl hroots
  have hclosed : S.system.Closed fun n => True ∧ (NodeVocabulary.within B).HasNode n := by
    apply hV.closed
    · constructor <;> intros <;> trivial
    · exact fun _ hm _ ht _ => hV.genericOverride hm ht
  refine finite_needed_of_finite (NodeVocabulary.finite_within B S.options.maxDepth)
    fun n hn hdepth => ⟨?_, hdepth⟩
  exact (hn.of_closed hclosed fun k hk =>
    ⟨trivial, hV.rootNode hroots (mem_startNodes.1 hk)⟩).2

/-- If roots lead to finitely many nodes, their marking ends, whether or not it is cancelled. -/
theorem exists_bound_analyze (hfin : { n | S.system.Needed (S.startNodes roots) n }.Finite)
    (cancelled : Option Bool) : ∃ bound, outcome (S.analyze bound roots cancelled) ≠ .ok none ∧
      ∀ fuel, bound ≤ fuel → outcome (S.analyze fuel roots cancelled) =
        outcome (S.analyze bound roots cancelled) := by
  cases hstart : outcome (roots.foldlM S.addRoot (initialStart cancelled)) with
  | error e =>
    have herror (fuel : Nat) : outcome (S.analyze fuel roots cancelled) = .error e := by
      rw [outcome_analyze, hstart]
      rfl
    refine ⟨0, ?_, fun fuel _ => (herror fuel).trans (herror 0).symm⟩
    rw [herror]
    exact fun h => nomatch h
  | ok start =>
    have hclosed := S.system.closed_needed S.nodeByNode_system (S.startNodes roots)
    have hvalid := (valid_addRoots hclosed hstart (valid_initialStart _ cancelled)
      fun n hn => .root (mem_startNodes.2 hn)).1
    obtain ⟨bound, hend, hbound⟩ := hvalid.exists_bound S.nodeByNode_system hfin
    refine ⟨bound, ?_, fun fuel hle => ?_⟩
    · rw [outcome_analyze, hstart, ok_bind]
      cases hrun : (start.analysis.run S.system bound).value with
      | exhausted => exact absurd hrun hend
      | cancelled s => exact fun h => nomatch h
      | finished a =>
        dsimp only
        split <;> exact fun h => nomatch h
    · rw [outcome_analyze, outcome_analyze, hstart, ok_bind, ok_bind, hbound fuel hle]

end Setting

/-- Every scan ends: its roots lead to finitely many nodes, and with enough fuel it has an answer,
which may be an error and does not depend on the fuel. -/
theorem Program.scan_terminates {P : Program} (hP : P.Formed) (options : Options)
    {roots : List Root} (hroots : ∀ r ∈ roots, NodeVocabulary.formed.HasRoot r.kind)
    (cancelled : Option Bool) :
    { n | Setting.system { program := P, options } |>.Needed
      (Setting.startNodes { program := P, options } roots) n }.Finite ∧
    ∃ bound r, r ≠ .ok none ∧
      ∀ fuel, bound ≤ fuel → outcome (P.scan fuel options roots cancelled) = r := by
  have hfin := Setting.finite_needed (S := { program := P, options }) hP hroots
  refine ⟨hfin, ?_⟩
  obtain ⟨bound, hend, hbound⟩ := Setting.exists_bound_analyze hfin cancelled
  have hscan (fuel : Nat) : outcome (P.scan fuel options roots cancelled) =
      outcome (Setting.analyze { program := P, options } fuel roots cancelled) >>= fun graph? =>
        .ok (graph?.map fun graph => { graph, roots }) := by
    rw [scan, outcome_bind]
    rfl
  refine ⟨bound, outcome (P.scan bound options roots cancelled), ?_, fun fuel hle => ?_⟩
  · rw [hscan]
    intro hnone
    obtain ⟨graph?, hgraph, hnone⟩ := bind_eq_ok.1 hnone
    cases graph? with
    | none => exact hend hgraph
    | some graph => cases hnone
  · rw [hscan, hscan, hbound fuel hle]

/-! ### Wrapping

To recurse, a wrapped value is wrapped once more: the code for numbers needs that for wrapped numbers,
and so on. -/

namespace Wrapping

def wrap : TypeDecl :=
  { id := 19, space := "App", name := "Wrap`1", arity := 1, flags := { valueType := true } }

def recurse : MethodDecl := .ofName 0 wrap "Recurse" { static := true }

def wrapOf (t : Ty) : Ty := .app (.decl wrap) t

def program : Program :=
  Program.withTypes [.ofMethods wrap (some (.ofWellKnown .valueType)) [recurse]]
    |>.setBody recurse.method
      [.call (.known ⟨recurse, wrapOf (wrapOf (.param .type 0)), []⟩), .ret]

def roots : List Root :=
  [{ kind := .method ⟨recurse, wrapOf (.ofWellKnown .int32), []⟩, reason := "entry point" }]

/-- The program of wrapped values is put together as it should be. -/
theorem formed_program : program.Formed := by
  constructor
  · intro r hr
    rcases Program.mem_types_withTypes.1 hr with hr | hr
    · obtain ⟨w, -, rfl⟩ := List.mem_map.1 hr
      constructor
      · intro b hb
        obtain ⟨w', -, rfl⟩ := Option.map_eq_some_iff.1 hb
        trivial
      all_goals
        intro x hx
        cases hx
    · rw [List.mem_singleton.1 hr]
      constructor
      · intro b hb
        cases hb
        trivial
      all_goals
        intro x hx
        cases hx
  · intro m body hbody i hi
    rw [program, Program.body?_setBody, Program.body?_withTypes] at hbody
    split at hbody
    · cases hbody
      simp only [List.mem_cons, List.not_mem_nil, or_false] at hi
      rcases hi with rfl | rfl
      · exact ⟨rfl, ⟨rfl, trivial, rfl, trivial, trivial⟩, List.forall_mem_nil _⟩
      · trivial
    · cases hbody

/-- The root for wrapped numbers is put together as it should be. -/
theorem formed_roots : ∀ r ∈ roots, NodeVocabulary.formed.HasRoot r.kind :=
  List.forall_mem_singleton.2 ⟨rfl, ⟨rfl, trivial, trivial⟩, List.forall_mem_nil _⟩

/-- A scan ends though recursing wraps without end, as types may be nested up to a depth only. -/
theorem scan_terminates_recurse : program.Formed ∧
    (∀ r ∈ roots, NodeVocabulary.formed.HasRoot r.kind) ∧
    { n | Setting.system { program, options := { maxDepth := 5 } } |>.Needed
      (Setting.startNodes { program, options := { maxDepth := 5 } } roots) n }.Finite ∧
    ∃ bound r, r ≠ .ok none ∧
      ∀ fuel, bound ≤ fuel → outcome (program.scan fuel { maxDepth := 5 } roots none) = r :=
  ⟨formed_program, formed_roots,
    Program.scan_terminates formed_program { maxDepth := 5 } formed_roots none⟩

end Wrapping

end AheadOfTime
