import AheadOfTime.Declaration
import AheadOfTime.Proofs.Program.Dispatch
import AheadOfTime.Proofs.Scan.Graph

/-!
# Overrides that a scan finds

A call through a slot may lead to any override of it on a type of which objects exist.  The call and
the type name the slot independently: the call by searching upwards from the method that it names,
the type by listing the slots that its base types introduce.  The two meet on the same node, and so
a scan misses no override of a method without generic parameters, on classes and on interfaces.
-/

set_option autoImplicit false

namespace AheadOfTime

open Marking

/-- What is not abstract is no interface. -/
theorem Ty.isInterface_of_not_isAbstract {t : Ty} (h : t.isAbstract = false) :
    t.isInterface = false := by
  rw [Ty.isAbstract, Bool.or_eq_false_iff] at h
  exact h.2

/-- Objects of type `c` answer calls of the method `d`: the slot of a class method was introduced on
a base type of `c`, by a method that is not generic, or `c` implements the interface of `d`.  The
search for the slot has to end; it would go on for ever if methods overrode each other in a
circle. -/
def Program.AnswersCall (P : Program) (d : Method) (c : Ty) : Prop :=
  (d.owner.isInterface = false ∧ ∃ s, outcome (P.slotOf d) = .ok s ∧ P.IntroducesSlot s ∧
    s.decl.signature.arity = 0 ∧ s.owner ∈ (P.baseChain c).value) ∨
  (d.owner.isInterface = true ∧ d.owner ∈ (P.allInterfaces c).value)

/-! ## Edges of a type of which objects exist -/

namespace Setting

variable {S : Setting}

/-- The node for a slot depends only on the method that introduced it. -/
theorem slotFor_congr {m m' : Method}
    (h : outcome (S.program.slotOf m) = outcome (S.program.slotOf m')) :
    outcome (S.slotFor m) = outcome (S.slotFor m') := by
  unfold slotFor
  rw [outcome_bind, outcome_bind, h]

/-- The node for the code of a method is this code, or else that the method runs on shared code. -/
theorem value_codeNode (S : Setting) (m : Method) : (S.codeNode m).value =
    if (S.codeOwner m).value = m then .code m else .shadow m := by
  rw [codeNode, Recorded.value_bind, Recorded.value_pure]

/-- A method in canonical form has code of its own. -/
theorem value_codeNode_of_canonical (S : Setting) {m : Method} (h : m.canonical = m) :
    (S.codeNode m).value = .code m := by
  have howner : (S.codeOwner m).value = m := by
    unfold codeOwner
    split <;> simp [h]
  simp [codeNode, howner]

/-- The node for the code of a method on its own declaration is this code. -/
@[simp] theorem value_codeNode_method (S : Setting) (d : MethodDecl) :
    (S.codeNode d.method).value = .code d.method :=
  S.value_codeNode_of_canonical rfl

/-- A method as declared stands for the slot that it introduced. -/
theorem slotFor_method {m : Method} {d : MethodDecl}
    (h : outcome (S.program.slotOf m) = .ok d.method) :
    outcome (S.slotFor m) = .ok d.method := by
  unfold slotFor
  rw [outcome_bind, h, ok_bind]
  cases S.options.sharedGenerics <;> simp

/-- The node of a method root in canonical form is the code of the method. -/
theorem rootNodes_method (S : Setting) {m : Method} (hopen : m.isOpen = false)
    (hcanonical : m.canonical = m) : outcome (S.rootNodes (.method m)) = .ok [.code m] := by
  simp [rootNodes, hopen, S.value_codeNode_of_canonical hcanonical]

/-- The data of a type that is declared, or instantiates one that is, needs the data of its base. -/
theorem outcome_expand_typeData {t : Ty} {d : TypeDecl} (base : Option Ty) (hd : t.decl? = some d)
    (hdepth : outcome (S.checkType t) = .ok ()) (hbase : (S.program.baseType t).value = base) :
    outcome (S.expand (.typeData t)) =
      .ok { edges := (base.map fun b => ⟨.typeData b, "base type"⟩).toList } := by
  simp only [expand, expandTypeData, outcome_bind, hdepth, ok_bind, outcome_liftM, hbase]
  cases t with
  | decl | app => cases base <;> rfl
  | _ => cases hd

/-- What a type needs of which objects exist, if nothing is listed for its interfaces. -/
theorem outcome_expand_constructed_of_type {t : Ty} {slots : List (ConditionalEdge Node)}
    {interfaces : List Ty} (hdepth : outcome (S.checkType t) = .ok ())
    (harray : t.isArray = false) (hconcrete : t.isAbstract = false)
    (hconstructor : (S.program.classConstructor? t).value = none)
    (hslots : outcome (S.slotEdges t) = .ok slots)
    (hinterfaces : (S.program.allInterfaces t).value = interfaces)
    (hnone : ∀ i ∈ interfaces, outcome (S.interfaceEdges t i) = .ok []) :
    outcome (S.expand (.constructed t)) =
      .ok { edges := [⟨.typeData t, "type handle"⟩], conditional := slots } := by
  cases t with
  | array e r => cases harray
  | _ =>
    simp [expand, expandConstructed, hdepth, hconcrete, hconstructor, hslots, hinterfaces,
      mapM_ok hnone]

/-- Objects of a declared type need its type data, and overrides of its slots if these are used,
when its interfaces ask for nothing. -/
theorem outcome_expand_constructed {d : TypeDecl} {slots : List (ConditionalEdge Node)}
    {interfaces : List Ty} (hdepth : outcome (S.checkType (.decl d)) = .ok ())
    (hconcrete : (Ty.decl d).isAbstract = false)
    (hconstructor : (S.program.classConstructor? (.decl d)).value = none)
    (hslots : outcome (S.slotEdges (.decl d)) = .ok slots)
    (hinterfaces : (S.program.allInterfaces (.decl d)).value = interfaces)
    (hnone : ∀ i ∈ interfaces, outcome (S.interfaceEdges (.decl d) i) = .ok []) :
    outcome (S.expand (.constructed (.decl d))) =
      .ok { edges := [⟨.typeData (.decl d), "type handle"⟩], conditional := slots } :=
  outcome_expand_constructed_of_type hdepth rfl hconcrete hconstructor hslots hinterfaces hnone

/-- An implementation is needed if its slot is used. -/
theorem outcome_overrideEdge {implementation slot v : Method} (label : String)
    (himplementation : implementation.isAbstract = false)
    (hv : outcome (S.slotFor slot) = .ok v) :
    outcome (S.overrideEdge implementation slot label) =
      .ok [⟨(S.codeNode implementation).value, .slot v, label⟩] := by
  simp [overrideEdge, slotNode, himplementation, hv]

/-- What is needed under a condition, if objects of a type exist, is needed for its slots and for
its interfaces. -/
theorem exists_edges_of_expandConstructed {t : Ty} {x : Expansion Node}
    (h : outcome (S.expand (.constructed t)) = .ok x) (ht : t.isAbstract = false) :
    ∃ ofSlots ofInterfaces, outcome (S.slotEdges t) = .ok ofSlots ∧
      ((S.program.allInterfaces t).value.mapM fun i => outcome (S.interfaceEdges t i)) =
        .ok ofInterfaces ∧ x.conditional = ofSlots ++ ofInterfaces.flatten := by
  simp only [expand, expandConstructed, ht, Bool.false_eq_true, if_false, outcome_bind,
    outcome_liftM, ok_bind, outcome_mapM, outcome_pure] at h
  obtain ⟨-, -, h⟩ := bind_eq_ok.1 h
  obtain ⟨ofSlots, hslots, h⟩ := bind_eq_ok.1 h
  obtain ⟨ofInterfaces, hinterfaces, h⟩ := bind_eq_ok.1 h
  cases h
  exact ⟨ofSlots, ofInterfaces, hslots, hinterfaces, rfl⟩

/-- Every slot of a type leads to a method, whose code is needed if the slot is called through. -/
theorem exists_target_of_slotEdges {t : Ty} {edges : List (ConditionalEdge Node)} {s v : Method}
    (h : outcome (S.slotEdges t) = .ok edges) (hs : S.program.IsVirtualDefinition s)
    (hintro : S.program.IntroducesSlot s) (harity : s.decl.signature.arity = 0)
    (howner : s.owner ∈ S.program.chain S.program.walkLimit t)
    (hv : outcome (S.slotFor s) = .ok v) :
    ∃ target, outcome (S.program.resolve s t) = .ok target ∧ (target.isAbstract = false →
      ∃ e ∈ edges, e.condition = .slot v ∧ e.target = (S.codeNode target).value) := by
  unfold slotEdges at h
  simp only [outcome_bind, outcome_mapM, outcome_pure] at h
  obtain ⟨slots, hslots, h⟩ := bind_eq_ok.1 h
  obtain ⟨perSlot, hperSlot, h⟩ := bind_eq_ok.1 h
  cases h
  have hmem := Program.mem_slotsOf hslots hs hintro harity howner
  obtain ⟨own, hown, hedge⟩ := (mapM_eq_ok hperSlot).1 s hmem
  obtain ⟨target, htarget, hedge⟩ := bind_eq_ok.1 hedge
  refine ⟨target, htarget, fun hconcrete => ?_⟩
  rw [outcome_overrideEdge _ hconcrete hv] at hedge
  cases hedge
  exact ⟨_, List.mem_flatten.2 ⟨_, hown, List.mem_singleton_self _⟩, rfl, rfl⟩

/-- Every method of an interface leads to a method, whose code is needed if the interface method is
called. -/
theorem exists_target_of_interfaceEdges {t : Ty} {edges : List (ConditionalEdge Node)}
    {m v : Method} (h : outcome (S.interfaceEdges t m.owner) = .ok edges)
    (hm : S.program.IsVirtualDefinition m) (hinterface : m.owner.isInterface = true)
    (harity : m.decl.signature.arity = 0) (hv : outcome (S.slotFor m) = .ok v) :
    ∃ target, outcome (S.program.resolve m t) = .ok target ∧ (target.isAbstract = false →
      ∃ e ∈ edges, e.condition = .slot v ∧ e.target = (S.codeNode target).value) := by
  unfold interfaceEdges at h
  simp only [outcome_bind, outcome_liftM, ok_bind, outcome_mapM, outcome_pure,
    Program.value_methodsOf] at h
  obtain ⟨perMethod, hperMethod, h⟩ := bind_eq_ok.1 h
  cases h
  have hmem : m ∈ S.program.methods m.owner :=
    S.program.mem_methods.2 ⟨hm.declared, rfl, hm.noArgs⟩
  obtain ⟨own, hown, hedge⟩ := (mapM_eq_ok hperMethod).1 m hmem
  have hgeneric : m.isGenericDefinition = false := by simp [Method.isGenericDefinition, harity]
  simp only [hm.virtual, hgeneric, Bool.not_true, Bool.or_self, Bool.false_eq_true, if_false,
    outcome_bind] at hedge
  obtain ⟨target?, htarget?, hedge⟩ := bind_eq_ok.1 hedge
  refine ⟨target?.getD m, ?_, fun hconcrete => ?_⟩
  · rw [S.program.outcome_resolve_of_interface hinterface, htarget?, ok_bind]
  · cases target? with
    | some target =>
      rw [Option.getD_some] at hconcrete
      dsimp only at hedge
      rw [outcome_overrideEdge _ hconcrete hv] at hedge
      cases hedge
      exact ⟨_, List.mem_flatten.2 ⟨_, hown, List.mem_singleton_self _⟩, rfl, rfl⟩
    | none =>
      -- only an abstract method has neither an implementation nor a body of its own
      rw [S.program.outcome_interfaceTarget?] at htarget?
      obtain ⟨found, -, htarget?⟩ := bind_eq_ok.1 htarget?
      rw [Option.getD_none] at hconcrete
      cases found with
      | some found =>
        dsimp only at htarget?
        cases hclass : outcome (S.program.classTarget (found.withArgs m.args) t) with
        | error e =>
          rw [hclass] at htarget?
          cases htarget?
        | ok target =>
          rw [hclass] at htarget?
          cases htarget?
      | none => simp [hconcrete] at htarget?

/-! ## Marked nodes -/

variable {roots : List Root} {g : NodeGraph}

/-- A marked node has been expanded, unless it is code without a body. -/
theorem FixedPoint.exists_expansion (h : S.FixedPoint roots g) {n : Node}
    (hn : g.isMarked n = true)
    (hcode : ∀ m, n = .code m → m.isAbstract = true ∨ (S.program.body? m).isSome) :
    ∃ x, outcome (S.expand n) = .ok x := by
  cases hx : outcome (S.expand n) with
  | ok x => exact ⟨x, rfl⟩
  | error e =>
    have hfault := S.faulty_expand n hcode e hx
    have hnot := h.fault hn hx
    rw [Diagnostic.isFatal_of_isFault hfault] at hnot
    cases hnot

/-- With a method that runs on shared code, this code is marked. -/
theorem FixedPoint.isMarked_shared (h : S.FixedPoint roots g) {m : Method}
    (hm : g.isMarked (.shadow m) = true) : g.isMarked (.code (S.codeOwner m).value) = true := by
  obtain ⟨x, hx⟩ := h.exists_expansion hm fun _ hm => Node.noConfusion hm
  refine h.edge hm hx ⟨.code (S.codeOwner m).value, "shared code"⟩ ?_
  rw [S.outcome_expand_shadow] at hx
  obtain ⟨-, -, hx⟩ := bind_eq_ok.1 hx
  split at hx
  · obtain ⟨imported, -, hx⟩ := bind_eq_ok.1 hx
    cases hx
    exact List.mem_cons_self
  · cases hx
    exact List.mem_cons_self

/-- With the node for a method that is called, the code that it runs on is marked. -/
theorem FixedPoint.isMarked_codeOwner (h : S.FixedPoint roots g) {m : Method}
    (hm : g.isMarked (S.codeNode m).value = true) :
    g.isMarked (.code (S.codeOwner m).value) = true := by
  have hnode : (S.codeNode m).value =
      if (S.codeOwner m).value = m then .code m else .shadow m := by
    simp [codeNode]
  rw [hnode] at hm
  split at hm
  · next howner => rwa [howner]
  · exact h.isMarked_shared hm

/-- A slot that is called through leads to marked code on every type of which objects exist and
below which the slot was introduced. -/
theorem FixedPoint.exists_target_of_class (h : S.FixedPoint roots g) (hP : S.program.WellFormed)
    (hbases : S.program.HasClassBases) {d s v : Method} {c : Ty}
    (hd : S.program.IsVirtualDefinition d) (hclass : d.owner.isInterface = false)
    (hs : outcome (S.program.slotOf d) = .ok s) (hintro : S.program.IntroducesSlot s)
    (harity : s.decl.signature.arity = 0)
    (howner : s.owner ∈ S.program.chain S.program.walkLimit c)
    (hv : outcome (S.slotFor d) = .ok v) (hslot : g.isMarked (.slot v) = true)
    (hc : g.isMarked (.constructed c) = true) (hconcrete : c.isAbstract = false) :
    ∃ target, outcome (S.program.resolve d c) = .ok target ∧
      (target.isAbstract = false → g.isMarked (S.codeNode target).value = true) := by
  have hsdef : S.program.IsVirtualDefinition s := hP.slotOf hd hs
  have hss : outcome (S.program.slotOf s) = .ok s := hintro.slotOf hsdef.noArgs
  have hsclass : s.owner.isInterface = false :=
    hbases.isInterface_of_mem_chain (Ty.isInterface_of_not_isAbstract hconcrete) howner
  -- the method that is called and the one that introduced the slot lead to the same method
  have hresolve : outcome (S.program.resolve d c) = outcome (S.program.resolve s c) := by
    rw [S.program.outcome_resolve_of_class hclass, S.program.outcome_resolve_of_class hsclass]
    refine Program.classTarget_eq_of_slot hd.virtual hsdef.virtual ?_ ?_ rfl ?_
      ⟨s.owner, howner, hintro.slotFiller?_owner hsdef⟩
    · rwa [hd.definition_eq]
    · rwa [hsdef.definition_eq]
    · rw [hd.noArgs, hsdef.noArgs]
  have hvs : outcome (S.slotFor s) = .ok v := by
    rw [← hv]
    exact slotFor_congr (by rw [hs, hss])
  obtain ⟨x, hx⟩ := h.exists_expansion hc fun _ hm => Node.noConfusion hm
  obtain ⟨ofSlots, ofInterfaces, hslots, -, hconditional⟩ :=
    exists_edges_of_expandConstructed hx hconcrete
  obtain ⟨target, htarget, hedge⟩ :=
    exists_target_of_slotEdges hslots hsdef hintro harity howner hvs
  refine ⟨target, hresolve.trans htarget, fun hcode => ?_⟩
  obtain ⟨e, he, hcondition, hetarget⟩ := hedge hcode
  rw [← hetarget]
  refine h.conditional hc hx e ?_ (by rwa [hcondition])
  rw [hconditional]
  exact List.mem_append_left _ he

/-- An interface method that is called leads to marked code on every type of which objects exist
and that implements the interface. -/
theorem FixedPoint.exists_target_of_interface (h : S.FixedPoint roots g) {d v : Method} {c : Ty}
    (hd : S.program.IsVirtualDefinition d) (hinterface : d.owner.isInterface = true)
    (harity : d.decl.signature.arity = 0)
    (himplements : d.owner ∈ (S.program.allInterfaces c).value)
    (hv : outcome (S.slotFor d) = .ok v) (hslot : g.isMarked (.slot v) = true)
    (hc : g.isMarked (.constructed c) = true) (hconcrete : c.isAbstract = false) :
    ∃ target, outcome (S.program.resolve d c) = .ok target ∧
      (target.isAbstract = false → g.isMarked (S.codeNode target).value = true) := by
  obtain ⟨x, hx⟩ := h.exists_expansion hc fun _ hm => Node.noConfusion hm
  obtain ⟨ofSlots, ofInterfaces, -, hinterfaces, hconditional⟩ :=
    exists_edges_of_expandConstructed hx hconcrete
  obtain ⟨edges, hedges, hown⟩ := (mapM_eq_ok hinterfaces).1 d.owner himplements
  obtain ⟨target, htarget, hedge⟩ :=
    exists_target_of_interfaceEdges hown hd hinterface harity hv
  refine ⟨target, htarget, fun hcode => ?_⟩
  obtain ⟨e, he, hcondition, hetarget⟩ := hedge hcode
  rw [← hetarget]
  refine h.conditional hc hx e ?_ (by rwa [hcondition])
  rw [hconditional]
  exact List.mem_append_right _ (List.mem_flatten.2 ⟨edges, hedges, he⟩)

/-- A slot that is called through leads to marked code on every type of which objects exist and that
answers the call. -/
theorem FixedPoint.exists_target_of_answersCall (h : S.FixedPoint roots g)
    (hP : S.program.WellFormed) (hbases : S.program.HasClassBases) {d v : Method} {c : Ty}
    (hd : S.program.IsVirtualDefinition d) (harity : d.decl.signature.arity = 0)
    (hv : outcome (S.slotFor d) = .ok v) (hslot : g.isMarked (.slot v) = true)
    (hc : g.isMarked (.constructed c) = true) (hconcrete : c.isAbstract = false)
    (hanswers : S.program.AnswersCall d c) :
    ∃ target, outcome (S.program.resolve d c) = .ok target ∧
      (target.isAbstract = false → g.isMarked (S.codeNode target).value = true) := by
  rcases hanswers with ⟨hclass, s, hs, hintro, hsarity, howner⟩ | ⟨hinterface, himplements⟩
  · rw [Program.value_baseChain] at howner
    exact h.exists_target_of_class hP hbases hd hclass hs hintro hsarity howner hv hslot hc hconcrete
  · exact h.exists_target_of_interface hd hinterface harity himplements hv hslot hc hconcrete

end Setting

/-! ## Scans -/

/-- The types that a scan says have objects are those whose objects are marked. -/
theorem Scan.mem_constructedTypes {s : Scan} {t : Ty} :
    t ∈ s.constructedTypes ↔ s.graph.isMarked (.constructed t) = true := by
  rw [Scan.constructedTypes, List.mem_filterMap, Graph.isMarked, Roster.contains_iff_mem]
  constructor
  · rintro ⟨n, hn, ht⟩
    cases n with
    | constructed u =>
      cases ht
      exact hn
    | _ => cases ht
  · intro h
    exact ⟨_, h, rfl⟩

namespace Program

variable {P : Program}

/-- A scan that succeeds keeps its roots and is a fixed point, with sealing read off the
declarations. -/
theorem scan_eq_ok {fuel : Nat} {options : Options} {roots : List Root} {cancelled : Option Bool}
    {scan : Scan} (h : outcome (P.scan fuel options roots cancelled) = .ok (some scan)) :
    scan.roots = roots ∧ Setting.FixedPoint { program := P, options } roots scan.graph := by
  obtain ⟨hgraph, hroots⟩ := scan_eq_ok_iff.1 h
  exact ⟨hroots, Setting.fixedPoint_of_analyze hgraph⟩

/-- A scan gives the graph that the analysis ends with. -/
theorem scan_of_analyze {fuel : Nat} {options : Options} {roots : List Root} {g : NodeGraph}
    (hg : outcome (Setting.analyze { program := P, options } fuel roots none) = .ok (some g)) :
    outcome (P.scan fuel options roots none) = .ok (some ⟨g, roots⟩) :=
  scan_eq_ok_iff.2 ⟨hg, rfl⟩

/-- A scan misses no override of a method without generic parameters: if its slot is called through
and objects of a type exist that answer its calls, then the method that runs on such objects is
marked, and so is the code that it runs on. -/
theorem scan_marks_override {fuel : Nat} {options : Options} {roots : List Root}
    {cancelled : Option Bool} {scan : Scan}
    (hscan : outcome (P.scan fuel options roots cancelled) = .ok (some scan))
    (hP : P.WellFormed) (hbases : P.HasClassBases) {d v : Method} {c : Ty}
    (hd : P.IsVirtualDefinition d) (harity : d.decl.signature.arity = 0)
    (hv : outcome (Setting.slotFor { program := P, options } d) = .ok v)
    (hslot : scan.graph.isMarked (.slot v) = true)
    (hc : scan.graph.isMarked (.constructed c) = true) (hconcrete : c.isAbstract = false)
    (hanswers : P.AnswersCall d c) :
    ∃ target, outcome (P.resolve d c) = .ok target ∧ (target.isAbstract = false →
      scan.graph.isMarked (Setting.codeNode { program := P, options } target).value = true ∧
      scan.graph.isMarked (.code (Setting.codeOwner { program := P, options } target).value) =
        true) := by
  have hfixed := (scan_eq_ok hscan).2
  obtain ⟨target, hresolve, hmarked⟩ :=
    hfixed.exists_target_of_answersCall hP hbases hd harity hv hslot hc hconcrete hanswers
  exact ⟨target, hresolve, fun hcode =>
    ⟨hmarked hcode, hfixed.isMarked_codeOwner (hmarked hcode)⟩⟩

end Program

/-! ### Shapes

A shape can be drawn, and squares and circles override how.  There are no shapes below circles. -/

namespace Drawing

def shape : TypeDecl := { id := 19, space := "App", name := "Shape" }

def circle : TypeDecl :=
  { id := 20, space := "App", name := "Circle", flags := { sealed := true } }

def square : TypeDecl := { id := 21, space := "App", name := "Square" }

def gallery : TypeDecl := { id := 22, space := "App", name := "Gallery" }

def drawShape : MethodDecl := .ofName 0 shape "Draw" .ofVirtual

def drawCircle : MethodDecl := .ofName 1 circle "Draw" .ofOverride

def drawSquare : MethodDecl := .ofName 2 square "Draw" .ofOverride

def showSquare : MethodDecl := .ofName 3 gallery "ShowSquare" { static := true }

def showCircle : MethodDecl := .ofName 4 gallery "ShowCircle" { static := true }

def types : List TypeRecord :=
  [.ofMethods shape (some .object) [drawShape],
    .ofMethods circle (some (.decl shape)) [drawCircle],
    .ofMethods square (some (.decl shape)) [drawSquare],
    .ofMethods gallery (some .object) [showSquare, showCircle]]

/-- Both calls name the method of shapes, one with a square and one with a circle as receiver. -/
def program : Program :=
  Program.withTypes types
    |>.setBody drawShape.method [.ret]
    |>.setBody drawCircle.method [.ret]
    |>.setBody drawSquare.method [.ret]
    |>.setBody showSquare.method
      [.callvirt (.known drawShape.method) (some (.known (.decl square)))]
    |>.setBody showCircle.method
      [.callvirt (.known drawShape.method) (some (.known (.decl circle)))]

abbrev setting : Setting := { program }

/-- The program of shapes is well-formed. -/
theorem wellFormed : program.WellFormed := by
  refine Program.wellFormed_of_withTypes types rfl fun r hr o ho => ?_
  simp only [types, List.mem_cons, List.not_mem_nil, or_false] at hr
  rcases hr with rfl | rfl | rfl | rfl <;> cases ho

/-- Shapes extend classes. -/
theorem hasClassBases : program.HasClassBases := by
  refine Program.hasClassBases_of_withTypes types rfl fun r hr b hb => ?_
  simp only [types, List.mem_cons, List.not_mem_nil, or_false] at hr
  rcases hr with rfl | rfl | rfl | rfl <;> cases hb <;> exact ⟨_, rfl, rfl⟩

/-- Drawing a square does nothing. -/
theorem body?_drawSquare : program.body? drawSquare.method = some [.ret] := by
  simp [program, showSquare, showCircle, drawSquare, MethodDecl.ofName]

/-- To show a square is to draw a shape that is a square. -/
theorem body?_showSquare : program.body? showSquare.method =
    some [.callvirt (.known drawShape.method) (some (.known (.decl square)))] := by
  simp [program, showSquare, showCircle, MethodDecl.ofName]

/-- Drawing a shape introduces a slot. -/
theorem introducesSlot_drawShape : program.IntroducesSlot drawShape.method := .inr (.inl rfl)

/-- The slot of drawing a shape is itself. -/
theorem slotOf_drawShape : outcome (program.slotOf drawShape.method) = .ok drawShape.method :=
  introducesSlot_drawShape.slotOf rfl

/-- Drawing a shape is a virtual method of the program. -/
theorem isVirtualDefinition_drawShape : program.IsVirtualDefinition drawShape.method :=
  ⟨rfl, ⟨shape, rfl, List.mem_singleton_self _⟩, rfl⟩

/-- Whatever draws a class of shapes occupies the slot of shapes. -/
theorem slotOf_draw {d : MethodDecl} (hname : d.name = "Draw")
    (hsignature : d.signature = drawShape.signature) (hflags : d.flags = .ofOverride)
    (hoverrides : outcome (program.overridesOf (.decl d.owner)) = .ok [])
    (hbase : (program.baseType (.decl d.owner)).value = some (.decl shape)) :
    outcome (program.slotOf d.method) = .ok drawShape.method := by
  have hmethods : program.methods drawShape.method.owner = [drawShape.method] := rfl
  have hvirtual : drawShape.method.isVirtual = true := rfl
  have hsame := MethodDecl.sameNameAndSignature_method hname.symm hsignature.symm
  refine introducesSlot_drawShape.slotOf_overriding ?_ ?_ rfl ?_ (by decide)
  · simp [Method.isVirtual, Method.flags, hflags, MethodFlags.ofOverride]
  · simp [Method.isNewSlot, Method.flags, hflags, MethodFlags.ofOverride]
  · refine Program.overridden?_of_base (by decide) hoverrides hbase ?_
    rw [hmethods]
    simp [hsame, hvirtual]

/-- Drawing a square occupies the slot of drawing a shape. -/
theorem slotOf_drawSquare : outcome (program.slotOf drawSquare.method) = .ok drawShape.method :=
  slotOf_draw rfl rfl rfl rfl rfl

/-- On a square, drawing a shape leads to drawing a square. -/
theorem resolve_square :
    outcome (program.resolve drawShape.method (.decl square)) = .ok drawSquare.method := by
  rw [program.outcome_resolve_of_class rfl]
  exact Program.classTarget_of_slotFiller? (by decide) rfl slotOf_drawShape
    (Program.slotFiller?_of_methods rfl rfl rfl rfl slotOf_drawSquare)

/-- The only slot of squares is that of drawing a shape. -/
theorem slotsOf_square : outcome (program.slotsOf (.decl square)) = .ok [drawShape.method] := by
  have hchain : program.chain program.walkLimit (.decl square) =
      [.decl square, .decl shape, .object] := rfl
  have hsquare : program.methods (.decl square) = [drawSquare.method] := rfl
  have hshape : program.methods (.decl shape) = [drawShape.method] := rfl
  have hobject : program.methods .object = [] := rfl
  have hvirtual : drawSquare.method.isVirtual = true ∧ drawShape.method.isVirtual = true :=
    ⟨rfl, rfl⟩
  have hgeneric : drawSquare.method.isGenericDefinition = false ∧
      drawShape.method.isGenericDefinition = false := ⟨rfl, rfl⟩
  simp [Program.slotsOf, hchain, hsquare, hshape, hobject, hvirtual, hgeneric, slotOf_drawSquare,
    slotOf_drawShape, List.filterM, List.filterAuxM]
  rfl

/-- Calls that draw a shape use the slot of drawing a shape. -/
theorem slotFor_drawShape : outcome (setting.slotFor drawShape.method) = .ok drawShape.method :=
  Setting.slotFor_method slotOf_drawShape

/-- Squares that exist need their type data, and drawing a square if the slot is used. -/
theorem expand_square : outcome (setting.expand (.constructed (.decl square))) =
    .ok { edges := [⟨.typeData (.decl square), "type handle"⟩],
          conditional :=
            [⟨.code drawSquare.method, .slot drawShape.method, "virtual method override"⟩] } := by
  have hcode : drawSquare.method.isAbstract = false := rfl
  have hslots : outcome (setting.slotEdges (.decl square)) =
      .ok [⟨.code drawSquare.method, .slot drawShape.method, "virtual method override"⟩] := by
    simp [Setting.slotEdges, slotsOf_square, resolve_square,
      Setting.outcome_overrideEdge _ hcode slotFor_drawShape]
  have hinterfaces : (program.allInterfaces (.decl square)).value = [] := rfl
  exact Setting.outcome_expand_constructed rfl rfl rfl hslots hinterfaces (by simp)

/-- Drawing a square needs nothing. -/
theorem expand_drawSquare : outcome (setting.expand (.code drawSquare.method)) = .ok {} := by
  rw [setting.outcome_expand_code, body?_drawSquare]
  rfl

/-- Showing a square needs the slot and nothing else. -/
theorem expand_showSquare : outcome (setting.expand (.code showSquare.method)) =
    .ok { edges := [⟨.slot drawShape.method, "callvirt"⟩] } :=
  setting.outcome_expand_code_singleton rfl rfl body?_showSquare
    (Importer.outcome_callvirt_of_slot rfl rfl rfl 0 rfl slotFor_drawShape)

/-- Squares exist, and a square is drawn. -/
def squareRoots : List Root :=
  [{ kind := .method showSquare.method, reason := "entry point" },
    { kind := .constructed (.decl square), reason := "factory" }]

/-- What is needed to draw a square. -/
def squareNodes : List Node :=
  [.code showSquare.method, .constructed (.decl square), .slot drawShape.method,
    .code drawSquare.method, .typeData (.decl square), .typeData (.decl shape), .typeData .object]

/-- Drawing a square needs what is listed. -/
theorem selfContained_square : setting.SelfContained squareNodes := by
  have hsquare := setting.outcome_expand_typeData (t := .decl square) (some (.decl shape)) rfl rfl rfl
  have hshape := setting.outcome_expand_typeData (t := .decl shape) (some .object) rfl rfl rfl
  have hobject := setting.outcome_expand_typeData (t := .object) none rfl rfl rfl
  refine .of_plain (.cons expand_showSquare <| .cons expand_square <| .cons rfl <|
    .cons expand_drawSquare <| .cons hsquare <| .cons hshape <| .cons hobject .nil) ?_ ?_ <;>
    simp [squareNodes]

/-- A scan of showing a square marks the slot and that squares exist, and nothing beyond the
list. -/
theorem exists_scan_square : ∃ fuel scan,
    outcome (program.scan fuel {} squareRoots none) = .ok (some scan) ∧
      scan.graph.isMarked (.slot drawShape.method) = true ∧
      scan.graph.isMarked (.constructed (.decl square)) = true ∧
      ∀ n, scan.graph.isMarked n = true → n ∈ squareNodes := by
  obtain ⟨fuel, g, hg, hroots, hnodes⟩ := selfContained_square.exists_analyze
    squareRoots (.cons (setting.rootNodes_method rfl rfl) (.cons rfl .nil)) (by simp [squareNodes])
  have hslot := (Setting.fixedPoint_of_analyze hg).edge (hroots _ (by simp)) expand_showSquare _
    (List.mem_singleton_self _)
  exact ⟨fuel, ⟨g, squareRoots⟩, Program.scan_of_analyze hg, hslot, hroots _ (by simp), hnodes⟩

/-- Squares answer calls that draw a shape. -/
theorem answersCall_square : program.AnswersCall drawShape.method (.decl square) := by
  refine .inl ⟨rfl, drawShape.method, slotOf_drawShape, introducesSlot_drawShape, rfl, ?_⟩
  rw [Program.value_baseChain]
  exact List.mem_cons_of_mem _ List.mem_cons_self

/-- If squares exist and a square is shown, drawing a square is marked. -/
theorem scan_marks_override_square : ∃ fuel scan,
    outcome (program.scan fuel {} squareRoots none) = .ok (some scan) ∧
      scan.graph.isMarked (.slot drawShape.method) = true ∧
      scan.graph.isMarked (.constructed (.decl square)) = true ∧
      program.AnswersCall drawShape.method (.decl square) ∧
      ∃ target, outcome (program.resolve drawShape.method (.decl square)) = .ok target ∧
        (target.isAbstract = false →
          scan.graph.isMarked (setting.codeNode target).value = true ∧
          scan.graph.isMarked (.code (setting.codeOwner target).value) = true) := by
  obtain ⟨fuel, scan, hscan, hslot, hconstructed, -⟩ := exists_scan_square
  exact ⟨fuel, scan, hscan, hslot, hconstructed, answersCall_square,
    Program.scan_marks_override hscan wellFormed hasClassBases isVirtualDefinition_drawShape rfl
      slotFor_drawShape hslot hconstructed rfl answersCall_square⟩

end Drawing

/-! ### Conversions

A source can be converted to any type.  A constant says that reading it stands for that; a decoder
converts for itself. -/

namespace Converting

def source : TypeDecl := { id := 19, space := "App", name := "Source" }

def constant : TypeDecl := { id := 20, space := "App", name := "Constant" }

def decoder : TypeDecl := { id := 21, space := "App", name := "Decoder" }

def host : TypeDecl := { id := 22, space := "App", name := "Host" }

def convert : MethodDecl := .ofName 0 source "Convert" .ofVirtual 1

def read : MethodDecl := .ofName 1 constant "Read" .ofOverride

def decode : MethodDecl := .ofName 2 decoder "Convert" .ofOverride 1

def callRead : MethodDecl := .ofName 3 host "CallRead" { static := true }

def callConvert : MethodDecl := .ofName 4 host "CallConvert" { static := true }

/-- The conversion to numbers. -/
def toInt32 : Method :=
  { convert.method with args := [.ofWellKnown .int32] }

def types : List TypeRecord :=
  [.ofMethods source (some .object) [convert],
    { TypeRecord.ofMethods constant (some (.decl source)) [read] with
      overrides := OverrideList.none.push ⟨convert.method, read.method⟩ },
    .ofMethods decoder (some (.decl source)) [decode],
    .ofMethods host (some .object) [callRead, callConvert]]

def program : Program :=
  Program.withTypes types
    |>.setBody convert.method [.ret]
    |>.setBody read.method [.ret]
    |>.setBody decode.method [.ret]
    |>.setBody callRead.method [.callvirt (.known read.method) none]
    |>.setBody callConvert.method [.callvirt (.known toInt32) none]

abbrev setting : Setting := { program }

/-- Converting is a virtual method of the program. -/
theorem isVirtualDefinition_convert : program.IsVirtualDefinition convert.method :=
  ⟨rfl, ⟨source, rfl, List.mem_singleton_self _⟩, rfl⟩

/-- Reading is a virtual method of the program. -/
theorem isVirtualDefinition_read : program.IsVirtualDefinition read.method :=
  ⟨rfl, ⟨constant, rfl, List.mem_singleton_self _⟩, rfl⟩

/-- The program of sources is well-formed. -/
theorem wellFormed : program.WellFormed := by
  refine Program.wellFormed_of_withTypes types rfl fun r hr o ho => ?_
  simp only [types, List.mem_cons, List.not_mem_nil, or_false] at hr
  rcases hr with rfl | rfl | rfl | rfl
  · cases ho
  · rw [List.mem_singleton.1 ho]
    exact ⟨rfl, isVirtualDefinition_convert.declared⟩
  · cases ho
  · cases ho

/-- Sources extend classes. -/
theorem hasClassBases : program.HasClassBases := by
  refine Program.hasClassBases_of_withTypes types rfl fun r hr b hb => ?_
  simp only [types, List.mem_cons, List.not_mem_nil, or_false] at hr
  rcases hr with rfl | rfl | rfl | rfl <;> cases hb <;> exact ⟨_, rfl, rfl⟩

/-- To call for a reading is to call the method that reads. -/
theorem body?_callRead :
    program.body? callRead.method = some [.callvirt (.known read.method) none] := by
  simp [program, callRead, callConvert, MethodDecl.ofName]

/-- Converting introduces a slot. -/
theorem introducesSlot_convert : program.IntroducesSlot convert.method := .inr (.inl rfl)

/-- The slot of converting is itself. -/
theorem slotOf_convert : outcome (program.slotOf convert.method) = .ok convert.method :=
  introducesSlot_convert.slotOf rfl

/-- A constant says that reading stands for converting. -/
theorem overridesOf_constant :
    outcome (program.overridesOf (.decl constant)) = .ok [⟨convert.method, read.method⟩] := rfl

/-- Reading occupies the slot of converting. -/
theorem slotOf_read : outcome (program.slotOf read.method) = .ok convert.method := by
  have howner : read.method.owner = .decl constant := rfl
  have hfind : ([⟨convert.method, read.method⟩] : List Override).find? (fun o =>
      o.body == read.method && !o.decl.owner.isInterface) =
        some ⟨convert.method, read.method⟩ := by
    have hclass : convert.method.owner.isInterface = false := rfl
    rw [List.find?_cons_of_pos]
    simp only [beq_self_eq_true, hclass, Bool.not_false, Bool.and_self]
  refine introducesSlot_convert.slotOf_overriding rfl rfl rfl ?_ (by decide)
  rw [Program.outcome_overridden?, howner, overridesOf_constant, ok_bind, hfind]
  rfl

/-- A constant lists no slot: converting is generic, and reading has no slot of its own. -/
theorem slotsOf_constant : outcome (program.slotsOf (.decl constant)) = .ok [] := by
  have hchain : program.chain program.walkLimit (.decl constant) =
      [.decl constant, .decl source, .object] := rfl
  have hconstant : program.methods (.decl constant) = [read.method] := rfl
  have hsource : program.methods (.decl source) = [convert.method] := rfl
  have hobject : program.methods .object = [] := rfl
  have hread : read.method.isVirtual = true ∧ read.method.isGenericDefinition = false := ⟨rfl, rfl⟩
  have hconvert : convert.method.isGenericDefinition = true := rfl
  have hne : (convert.method == read.method) = false := by
    simp [convert, read, MethodDecl.ofName]
  simp [Program.slotsOf, hchain, hconstant, hsource, hobject, hread, hconvert, slotOf_read, hne,
    List.filterM, List.filterAuxM]

/-- On a constant, reading leads to itself. -/
theorem resolve_constant :
    outcome (program.resolve read.method (.decl constant)) = .ok read.method := by
  have hfiller : outcome (program.slotFiller? convert.method (.decl constant)) =
      .ok (some read.method) := by
    have hclass : (Ty.decl convert.owner).isInterface = false := rfl
    simp [Program.slotFiller?, overridesOf_constant, List.findM?, hclass, slotOf_convert]
  rw [program.outcome_resolve_of_class rfl]
  exact Program.classTarget_of_slotFiller? (by decide) rfl slotOf_read hfiller

/-- Constants that exist need their type data and nothing else. -/
theorem expand_constant : outcome (setting.expand (.constructed (.decl constant))) =
    .ok { edges := [⟨.typeData (.decl constant), "type handle"⟩] } := by
  have hslots : outcome (setting.slotEdges (.decl constant)) = .ok [] := by
    simp only [Setting.slotEdges, outcome_bind, slotsOf_constant]
    rfl
  have hinterfaces : (program.allInterfaces (.decl constant)).value = [] := rfl
  exact Setting.outcome_expand_constructed rfl rfl rfl hslots hinterfaces (by simp)

/-- Calling for a reading needs the slot and nothing else. -/
theorem expand_callRead : outcome (setting.expand (.code callRead.method)) =
    .ok { edges := [⟨.slot convert.method, "callvirt"⟩] } :=
  setting.outcome_expand_code_singleton rfl rfl body?_callRead
    (Importer.outcome_callvirt_of_slot rfl rfl rfl 0 rfl (Setting.slotFor_method slotOf_read))

/-- Constants exist, and a constant is read. -/
def constantRoots : List Root :=
  [{ kind := .method callRead.method, reason := "entry point" },
    { kind := .constructed (.decl constant), reason := "factory" }]

/-- What is needed to read a constant. -/
def constantNodes : List Node :=
  [.code callRead.method, .constructed (.decl constant), .slot convert.method,
    .typeData (.decl constant), .typeData (.decl source), .typeData .object]

/-- Reading a constant needs what is listed. -/
theorem selfContained_constant : setting.SelfContained constantNodes := by
  have hconstant := setting.outcome_expand_typeData (t := .decl constant) (some (.decl source))
    rfl rfl rfl
  have hsource := setting.outcome_expand_typeData (t := .decl source) (some .object) rfl rfl rfl
  have hobject := setting.outcome_expand_typeData (t := .object) none rfl rfl rfl
  refine .of_plain (.cons expand_callRead <| .cons expand_constant <| .cons rfl <|
    .cons hconstant <| .cons hsource <| .cons hobject .nil) ?_ ?_ <;> simp [constantNodes]

/-- The slot of a method may have been introduced by a generic method, which no type lists among its
slots.  Then overrides are missed: a constant is read through the slot of converting, constants
exist, and reading is what runs on them, but it is not marked. -/
theorem exists_scan_missing_override : ∃ fuel scan,
    outcome (program.scan fuel {} constantRoots none) = .ok (some scan) ∧ program.WellFormed ∧
      program.HasClassBases ∧ program.IsVirtualDefinition read.method ∧
      read.signature.arity = 0 ∧ outcome (setting.slotFor read.method) = .ok convert.method ∧
      scan.graph.isMarked (.slot convert.method) = true ∧
      scan.graph.isMarked (.constructed (.decl constant)) = true ∧
      (Ty.decl constant).isAbstract = false ∧ read.method.owner.isInterface = false ∧
      outcome (program.slotOf read.method) = .ok convert.method ∧
      program.IntroducesSlot convert.method ∧
      convert.method.owner ∈ (program.baseChain (.decl constant)).value ∧
      outcome (program.resolve read.method (.decl constant)) = .ok read.method ∧
      read.method.isAbstract = false ∧
      scan.graph.isMarked (setting.codeNode read.method).value = false := by
  obtain ⟨fuel, g, hg, hroots, hnodes⟩ := selfContained_constant.exists_analyze
    constantRoots (.cons (setting.rootNodes_method rfl rfl) (.cons rfl .nil)) (by simp [constantNodes])
  have hobjects : g.isMarked (.constructed (.decl constant)) = true := hroots _ (by simp)
  have hslot : g.isMarked (.slot convert.method) = true := (Setting.fixedPoint_of_analyze hg).edge
    (hroots _ (by simp)) expand_callRead _ (List.mem_singleton_self _)
  have howner : convert.method.owner ∈ (program.baseChain (.decl constant)).value := by
    rw [Program.value_baseChain]
    exact List.mem_cons_of_mem _ List.mem_cons_self
  have hmissing : g.isMarked (setting.codeNode read.method).value = false := by
    rw [setting.value_codeNode_method, Bool.eq_false_iff]
    intro hread
    have hmem := hnodes _ hread
    simp [constantNodes, read, callRead, MethodDecl.ofName] at hmem
  exact ⟨fuel, ⟨g, constantRoots⟩, Program.scan_of_analyze hg, wellFormed, hasClassBases,
    isVirtualDefinition_read, rfl, Setting.slotFor_method slotOf_read, hslot, hobjects, rfl, rfl,
    slotOf_read, introducesSlot_convert, howner, resolve_constant, rfl, hmissing⟩

end Converting

end AheadOfTime
