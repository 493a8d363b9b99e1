import AheadOfTime.Proofs.Compile.Output

/-!
# What a compilation makes objects of

Sealing is concluded from the types of which objects exist in the scan, so a compilation should not
make objects of any other type.  What is checked is that it needs no other code.

Objects come from roots and from bodies, and it does not depend on sealing what a body makes.  So
whatever the body of checked code makes was seen by the scan.  But methods that run on shared code
have bodies too, with exact types, and these methods are not checked: a compilation may reach one
that the scan did not reach, on code that it did reach, and make objects of a type that nobody knew
of.
-/

set_option autoImplicit false

namespace AheadOfTime

open Marking

namespace Importer

variable {I : Importer} {i : Instruction} {c : Ty}

/-- An instruction makes the same objects whatever sealing is concluded from. -/
theorem Allocates.reseal (h : I.Allocates i c) (x : Sealing) : (I.reseal x).Allocates i c := by
  cases h with
  | newobj hm hclass => exact .newobj hm hclass
  | newarr ht => exact .newarr ht
  | box ht hvalue => exact .box ht hvalue
  | constrained ht hm hvalue htarget hnot => exact .constrained ht hm hvalue htarget hnot

/-- An edge that is not left to others is there. -/
theorem mem_edge {n : Node} (hkept : (I.skipsCanon && n.hasCanon) = false) (label : String) :
    ⟨n, label⟩ ∈ I.edge n label := by
  simp [edge, hkept]

/-- An instruction needs the types of the objects that it makes. -/
theorem Allocates.exists_mem (h : I.Allocates i c) (hkept : (I.skipsCanon && c.hasCanon) = false)
    {offset : Nat} {own : Imported} (hown : outcome (I.instruction offset i) = .ok own) :
    ∃ e ∈ own.edges, e.target = .constructed c := by
  have hmem := fun label => mem_edge (I := I) (n := .constructed c) hkept label
  cases h with
  | newobj hm hclass =>
    simp only [instruction, outcome_bind, hm, ok_bind, hclass] at hown
    cases hown
    exact ⟨_, List.mem_append_left _ (hmem _), rfl⟩
  | newarr ht =>
    rw [I.outcome_newarr ht] at hown
    cases hown
    exact ⟨_, hmem _, rfl⟩
  | box ht hvalue =>
    simp only [instruction, outcome_bind, ht, ok_bind, hvalue] at hown
    cases hown
    exact ⟨_, hmem _, rfl⟩
  | @constrained _ _ _ _ target ht hm hvalue htarget hnot =>
    have hboxed : (decide (target.owner = c) && !target.isAbstract) = false := by simpa using hnot
    simp only [instruction, outcome_bind, ht, hm, ok_bind] at hown
    rw [outcome_constrainedCall, hvalue, htarget, ok_bind, hboxed] at hown
    obtain ⟨rest, -, hown⟩ := bind_eq_ok.1 hown
    cases hown
    exact ⟨_, List.mem_append_left _ (hmem _), rfl⟩

end Importer

namespace Setting

/-- The body of a node makes objects of a type, and does not leave that to others. -/
def Makes (S : Setting) (n : Node) (c : Ty) : Prop :=
  ∃ I body, S.HasBody n I body ∧ (I.skipsCanon && c.hasCanon) = false ∧ ∃ i ∈ body, I.Allocates i c

variable {S : Setting} {n : Node} {c : Ty}

/-- A node makes objects of the same types when sealing is concluded from something else. -/
theorem Makes.reseal (h : S.Makes n c) (x : Sealing) : (S.reseal x).Makes n c := by
  obtain ⟨I, body, hbody, hkept, i, hi, halloc⟩ := h
  exact ⟨I.reseal x, body, hbody.reseal x, hkept, i, hi, halloc.reseal x⟩

/-- What objects a node makes does not depend on what sealing is concluded from. -/
theorem makes_reseal_iff {x : Sealing} : (S.reseal x).Makes n c ↔ S.Makes n c :=
  ⟨fun h => h.reseal S.sealing, fun h => h.reseal x⟩

/-- If a node is about objects, then the body of another one makes them. -/
def MadeBy (S : Setting) (n k : Node) : Prop :=
  ∀ c, k = .constructed c → S.Makes n c

/-- The vocabulary of everything but objects. -/
theorem madeBy_of_hasNode {k : Node}
    (hk : { NodeVocabulary.all with object := fun _ => False }.HasNode k) : S.MadeBy n k := by
  rintro c rfl
  cases hk

/-- A body leads only to objects that it makes. -/
theorem importsTo_madeBy {m : Method} {shared : Bool} {body : Body}
    (hbody : S.HasBody n (S.importer m shared) body) :
    Importer.ImportsTo (S.MadeBy n) (S.importBody m shared body) := by
  refine Importer.importsTo_importBody fun p hp => ?_
  refine Importer.importsTo_instruction (fun k hk _ => madeBy_of_hasNode hk)
    (NodeVocabulary.all_spans S _) trivial p.2 (NodeVocabulary.all_hasInstruction p.1)
    fun {t} halloc label e he c hc => ?_
  rw [Importer.target_of_mem_edge he, Node.constructed.injEq] at hc
  subst hc
  refine ⟨_, body, hbody, ?_, p.1, List.fst_mem_of_mem_zipIdx hp, halloc⟩
  unfold Importer.edge at he
  split at he
  · cases he
  · next hkept => exact Bool.eq_false_iff.2 hkept

/-- Nodes need objects only if their bodies make them. -/
theorem expandsTo_madeBy (S : Setting) (n : Node) :
    Yields (ExpandsTo (S.MadeBy n)) (S.expand n) := by
  have hspans := NodeVocabulary.all_spans S fun _ => False
  have hrest : ∀ {x : Expansion Node},
      ExpandsTo { NodeVocabulary.all with object := fun _ => False }.HasNode x →
        ExpandsTo (S.MadeBy n) x := by
    intro x hx
    exact ⟨fun e he => madeBy_of_hasNode (hx.1 e he), fun e he => madeBy_of_hasNode (hx.2 e he)⟩
  intro x hx
  cases n with
  | code m => exact Importer.expandsTo_code importsTo_madeBy x hx
  | shadow m => exact Importer.expandsTo_shadow nofun importsTo_madeBy x hx
  | constructed t => exact hrest (hspans.expandConstructed trivial x hx)
  | typeData t => exact hrest (hspans.expandTypeData trivial x hx)
  | statics t => exact hrest (hspans.expandStatics trivial x hx)
  | reflection r =>
    refine hrest (hspans.expandReflection ?_ x hx)
    cases r <;> trivial
  | slot m =>
    have hslot : Yields (ExpandsTo (S.MadeBy (.slot m))) (S.expand (.slot m)) :=
      .after fun _ => .pure LeadTo.nil.expansion
    exact hslot x hx

namespace FixedPoint

variable {roots : List Root} {g g' : NodeGraph}

/-- Whatever the body of a marked node makes is marked. -/
theorem isMarked_of_makes (h : S.FixedPoint roots g) (hn : g.isMarked n = true)
    (hmakes : S.Makes n c) : g.isMarked (.constructed c) = true := by
  obtain ⟨I, body, hbody, hkept, i, hi, halloc⟩ := hmakes
  obtain ⟨offset, hoffset⟩ := List.getElem?_of_mem hi
  obtain ⟨own, hown, hmarked⟩ :=
    h.exists_imported hn hbody (List.mem_zipIdx_iff_getElem?.2 hoffset)
  obtain ⟨e, he, htarget⟩ := halloc.exists_mem hkept hown
  rw [← htarget]
  exact hmarked e he

/-- Objects come from roots or from the body of a marked node. -/
theorem exists_makes (h : S.FixedPoint roots g) (hc : g.isMarked (.constructed c) = true) :
    S.RootNode roots (.constructed c) ∨ ∃ n, g.isMarked n = true ∧ S.Makes n c := by
  have hclosed : S.system.Closed fun k => g.isMarked k = true ∧ ∀ c, k = .constructed c →
      S.RootNode roots k ∨ ∃ n, g.isMarked n = true ∧ S.Makes n c := by
    refine S.nodeByNode_system.closed ?_ ?_ ?_
    · intro n x hn hx e he
      refine ⟨h.edge hn.1 hx e he, fun c hc => .inr ⟨n, hn.1, ?_⟩⟩
      exact (S.expandsTo_madeBy n x hx).1 e he c hc
    · intro n x hn hx e he hcondition
      refine ⟨h.conditional hn.1 hx e he hcondition.1, fun c hc => .inr ⟨n, hn.1, ?_⟩⟩
      exact (S.expandsTo_madeBy n x hx).2 e he c hc
    · intro n k x found hn hx hd hk hfound e he
      refine ⟨h.closed.dynamic hn.1 hx hd (by simpa using hk.1) hfound e he, fun c hc => ?_⟩
      exact absurd hc (NodeVocabulary.ne_constructed_of_search hfound he c)
  exact (h.least hclosed (fun n hn => ⟨h.root hn, fun _ _ => .inl hn⟩) hc).2 c rfl

/-- If a second marking with another kind of sealing reaches no new code, then it makes new objects
exactly if a method does that it newly reaches on shared code. -/
theorem constructed_within_iff {x : Sealing} (h : S.FixedPoint roots g)
    (h' : (S.reseal x).FixedPoint roots g')
    (hcode : ∀ m, g'.isMarked (.code m) = true → g.isMarked (.code m) = true) :
    (∀ c, g'.isMarked (.constructed c) = true → g.isMarked (.constructed c) = true) ↔
      ∀ m c, g'.isMarked (.shadow m) = true → g.isMarked (.shadow m) = false →
        S.Makes (.shadow m) c → g.isMarked (.constructed c) = true := by
  constructor
  · intro hwithin m c hm _ hmakes
    exact hwithin c (h'.isMarked_of_makes hm (hmakes.reseal x))
  · intro hshadow c hc
    rcases h'.exists_makes hc with hroot | ⟨n, hn, hmakes⟩
    · exact h.root hroot
    · replace hmakes := makes_reseal_iff.1 hmakes
      obtain ⟨I, body, hbody, -⟩ := id hmakes
      cases hbody with
      | @code m _ _ _ => exact h.isMarked_of_makes (hcode m hn) hmakes
      | @shadow m _ _ =>
        cases hm : g.isMarked (.shadow m) with
        | true => exact h.isMarked_of_makes hm hmakes
        | false => exact hshadow m c hn hm hmakes

/-- Methods that are marked as running on shared code have no code of their own. -/
theorem codeOwner_ne (h : S.FixedPoint roots g) {m : Method} (hm : g.isMarked (.shadow m) = true) :
    (S.codeOwner m).value ≠ m := by
  have hV : { NodeVocabulary.all with shadow := fun m => (S.codeOwner m).value ≠ m }.Covers S :=
    { NodeVocabulary.all_covers S with
      ownShadow := fun _ hne => hne
      shadowMethod := fun _ => trivial
      importable := fun _ => .inl trivial }
  refine h.hasNode hV ?_ (fun _ _ _ _ _ => hV.genericOverride trivial trivial) hm
  intro r _
  cases r.kind <;> trivial

end FixedPoint

end Setting

/-! ## Compilations -/

namespace Compilation

variable {C : Compilation} {fuel : Nat} {scan : Scan} {r : Compiled}

/-- A compilation that was checked needs only code that the scan marked. -/
theorem isMarked_scan_of_compile (hverify : C.options.verifyScan = true)
    (h : outcome (C.compile fuel scan) = .ok (some r)) {m : Method}
    (hm : r.graph.isMarked (.code m) = true) : scan.graph.isMarked (.code m) = true := by
  have hmarking := (compile_eq_ok h).1
  rw [outcome_compile, hmarking, ok_bind] at h
  dsimp only at h
  rw [if_pos hverify] at h
  by_contra hmissed
  obtain ⟨m', hm'⟩ := exists_missedBy? hm (Bool.eq_false_iff.2 hmissed)
  rw [hm'] at h
  cases h

/-- A compilation that was checked makes objects only of types that the scan knows exactly if that
holds of the methods that it reaches on shared code and that the scan did not reach.  Without shared
code it always does. -/
theorem compile_allocates_within_iff {scanFuel : Nat}
    (hscan : outcome (C.scan scanFuel) = .ok (some scan)) (hverify : C.options.verifyScan = true)
    (h : outcome (C.compile fuel scan) = .ok (some r)) :
    ((∀ c, r.graph.isMarked (.constructed c) = true →
        scan.graph.isMarked (.constructed c) = true) ↔
      ∀ m c, r.graph.isMarked (.shadow m) = true → scan.graph.isMarked (.shadow m) = false →
        C.scanSetting.Makes (.shadow m) c → scan.graph.isMarked (.constructed c) = true) ∧
    (C.options.sharedGenerics = false → ∀ c, r.graph.isMarked (.constructed c) = true →
      scan.graph.isMarked (.constructed c) = true) := by
  obtain ⟨hroots, hfixed⟩ := Program.scan_eq_ok hscan
  have hmarking := (compile_eq_ok h).1
  rw [marking, hroots] at hmarking
  have hfixed' := Setting.fixedPoint_of_analyze hmarking
  have hwithin := hfixed.constructed_within_iff hfixed' fun m => isMarked_scan_of_compile hverify h
  refine ⟨hwithin, fun hunshared => hwithin.2 fun m c hm _ _ => ?_⟩
  refine absurd ?_ (hfixed'.codeOwner_ne hm)
  rw [Setting.value_codeOwner]
  exact if_neg (Bool.eq_false_iff.1 hunshared)

end Compilation

/-! ### Frames

Frames are shapes.  Drawing one makes an array of what it frames; the code is shared.  There is a
frame for texts, a circle is drawn though there is none, and some frame is drawn too. -/

namespace Framing

open Drawing (shape circle gallery drawShape drawCircle showCircle)

def frame : TypeDecl := { id := 21, space := "App", name := "Frame", arity := 1 }

def drawFrame : MethodDecl := .ofName 2 frame "Draw" .ofOverride

def frameOf (t : Ty) : Ty := .app (.decl frame) t

/-- How a frame is drawn. -/
def draw (t : Ty) : Method := ⟨drawFrame, frameOf t, []⟩

def types : List TypeRecord :=
  [.ofMethods shape (some .object) [drawShape],
    .ofMethods circle (some (.decl shape)) [drawCircle],
    .ofMethods frame (some (.decl shape)) [drawFrame],
    .ofMethods gallery (some .object) [showCircle]]

def program : Program :=
  Program.withTypes types
    |>.setBody drawCircle.method [.ret]
    |>.setBody drawFrame.method [.newarr (.known (.param .type 0))]
    |>.setBody showCircle.method
      [.callvirt (.known drawShape.method) (some (.known (.decl circle)))]

/-- Frames for texts exist, a circle is drawn, and so is some frame. -/
def roots (w : WellKnown) : List Root :=
  [{ kind := .method showCircle.method, reason := "entry point" },
    { kind := .constructed (frameOf (.ofWellKnown .string)), reason := "factory" },
    { kind := .method (draw (.ofWellKnown w)), reason := "entry point" }]

def compilation (w : WellKnown) : Compilation := { program, roots := roots w }

abbrev setting (x : Sealing) : Setting := { program, sealing := x }

/-- Drawing a circle does nothing. -/
theorem body?_drawCircle : program.body? drawCircle.method = some [.ret] := by
  simp [program, drawCircle, drawFrame, showCircle, MethodDecl.ofName]

/-- To show a circle is to draw a shape that is a circle. -/
theorem body?_showCircle : program.body? showCircle.method =
    some [.callvirt (.known drawShape.method) (some (.known (.decl circle)))] := by
  simp [program]

/-- To draw a frame is to make an array of what it frames. -/
theorem body?_draw (t : Ty) :
    program.body? (draw t) = some [.newarr (.known (.param .type 0))] := by
  have htypical : (draw t).typical = drawFrame.method := rfl
  simp [program, htypical, drawFrame, showCircle, MethodDecl.ofName]

/-- Drawing a shape introduces a slot. -/
theorem introducesSlot_drawShape : program.IntroducesSlot drawShape.method := .inr (.inl rfl)

/-- The slot of drawing a shape is itself. -/
theorem slotOf_drawShape : outcome (program.slotOf drawShape.method) = .ok drawShape.method :=
  introducesSlot_drawShape.slotOf rfl

/-- Whatever draws a class of shapes occupies the slot of shapes. -/
theorem slotOf_override {m : Method} (hvirtual : m.isVirtual = true) (hnew : m.isNewSlot = false)
    (hargs : m.args = []) (hoverrides : outcome (program.overridesOf m.owner) = .ok [])
    (hbase : (program.baseType m.owner).value = some (.decl shape))
    (hsame : drawShape.method.sameNameAndSignature m = true) :
    outcome (program.slotOf m) = .ok drawShape.method := by
  have hmethods : program.methods drawShape.method.owner = [drawShape.method] := rfl
  have hshape : drawShape.method.isVirtual = true := rfl
  refine introducesSlot_drawShape.slotOf_overriding hvirtual hnew hargs ?_ (by decide)
  refine Program.overridden?_of_base (by decide) hoverrides hbase ?_
  rw [hmethods]
  simp [hsame, hshape]

/-- Drawing a circle occupies the slot of drawing a shape. -/
theorem slotOf_drawCircle : outcome (program.slotOf drawCircle.method) = .ok drawShape.method :=
  slotOf_override rfl rfl rfl rfl rfl (MethodDecl.sameNameAndSignature_method rfl rfl)

/-- Drawing a frame occupies the slot of drawing a shape. -/
theorem slotOf_draw (t : Ty) : outcome (program.slotOf (draw t)) = .ok drawShape.method := by
  have hname : drawShape.method.name = (draw t).name := rfl
  have hsignature : drawShape.method.signature = (draw t).signature := rfl
  refine slotOf_override rfl rfl rfl rfl rfl ?_
  simp [Method.sameNameAndSignature, hname, hsignature]

/-- On a circle, drawing a shape leads to drawing a circle. -/
theorem resolve_circle :
    outcome (program.resolve drawShape.method (.decl circle)) = .ok drawCircle.method := by
  rw [program.outcome_resolve_of_class rfl]
  exact Program.classTarget_of_slotFiller? (by decide) rfl slotOf_drawShape
    (Program.slotFiller?_of_methods rfl rfl rfl rfl slotOf_drawCircle)

/-- On a frame, drawing a shape leads to drawing the frame. -/
theorem resolve_frame (t : Ty) :
    outcome (program.resolve drawShape.method (frameOf t)) = .ok (draw t) := by
  rw [program.outcome_resolve_of_class rfl]
  exact Program.classTarget_of_slotFiller? (by decide) rfl slotOf_drawShape
    (Program.slotFiller?_of_methods rfl rfl rfl rfl (slotOf_draw t))

/-- The only slot of frames is that of drawing a shape. -/
theorem slotsOf_frame (t : Ty) : outcome (program.slotsOf (frameOf t)) = .ok [drawShape.method] := by
  have hchain : program.chain program.walkLimit (frameOf t) =
      [frameOf t, .decl shape, .object] := rfl
  have hframe : program.methods (frameOf t) = [draw t] := rfl
  have hshape : program.methods (.decl shape) = [drawShape.method] := rfl
  have hobject : program.methods .object = [] := rfl
  have hvirtual : (draw t).isVirtual = true ∧ drawShape.method.isVirtual = true := ⟨rfl, rfl⟩
  have hgeneric : (draw t).isGenericDefinition = false ∧
      drawShape.method.isGenericDefinition = false := ⟨rfl, rfl⟩
  simp [Program.slotsOf, hchain, hframe, hshape, hobject, hvirtual, hgeneric, slotOf_draw,
    slotOf_drawShape, List.filterM, List.filterAuxM]
  rfl

section Expand

variable (x : Sealing)

/-- Calls that draw a shape use the slot of drawing a shape. -/
theorem slotFor_drawShape :
    outcome ((setting x).slotFor drawShape.method) = .ok drawShape.method :=
  Setting.slotFor_method slotOf_drawShape

/-- Frames for texts and for objects share the code that draws them. -/
theorem codeNode_draw {w : WellKnown} (hw : w = .object ∨ w = .string) :
    ((setting x).codeNode (draw (.ofWellKnown w))).value = .shadow (draw (.ofWellKnown w)) := by
  have hcanonical : (draw (.ofWellKnown w)).canonical = draw .canon := by
    rcases hw with rfl | rfl <;> rfl
  have hne : draw .canon ≠ draw (.ofWellKnown w) := by
    simp [draw, frameOf, Ty.ofWellKnown]
  rw [Setting.value_codeNode, Setting.value_codeOwner, hcanonical]
  exact if_neg hne

/-- Frames for texts that exist need their type data, and drawing one if the slot is used. -/
theorem expand_frame : outcome ((setting x).expand (.constructed (frameOf (.ofWellKnown .string)))) =
    .ok { edges := [⟨.typeData (frameOf (.ofWellKnown .string)), "type handle"⟩],
          conditional := [⟨.shadow (draw (.ofWellKnown .string)), .slot drawShape.method,
            "virtual method override"⟩] } := by
  have hcode : (draw (.ofWellKnown .string)).isAbstract = false := rfl
  have hslots : outcome ((setting x).slotEdges (frameOf (.ofWellKnown .string))) =
      .ok [⟨.shadow (draw (.ofWellKnown .string)), .slot drawShape.method,
        "virtual method override"⟩] := by
    rw [← codeNode_draw x (.inr rfl)]
    simp [Setting.slotEdges, slotsOf_frame, resolve_frame,
      Setting.outcome_overrideEdge _ hcode (slotFor_drawShape x)]
  have hmethods : program.methods (frameOf (.ofWellKnown .string)) = [draw (.ofWellKnown .string)] :=
    rfl
  have hconstructor :
      (program.classConstructor? (frameOf (.ofWellKnown .string))).value = none := by
    simp [Program.classConstructor?, hmethods]
    rfl
  have hinterfaces :
      (program.allInterfaces (frameOf (.ofWellKnown .string))).value = [] := rfl
  exact Setting.outcome_expand_constructed_of_type rfl rfl rfl hconstructor hslots hinterfaces
    (by simp)

/-- Drawing a frame makes an array of what it frames. -/
theorem outcome_makeArray {t : Ty} (ht : t.hasParams = false) (shared : Bool) :
    outcome (((setting x).importer (draw t) shared).instruction 0
      (.newarr (.known (.param .type 0)))) =
      .ok ⟨((setting x).importer (draw t) shared).edge (.constructed (.array t none)) "newarr", []⟩ :=
  Importer.outcome_newarr _ (Importer.outcome_type_known _ (u := t) rfl ht) 0

/-- Drawing a frame needs the shared code and an array of what is framed. -/
theorem expand_draw {w : WellKnown} (hw : w = .object ∨ w = .string) :
    outcome ((setting x).expand (.shadow (draw (.ofWellKnown w)))) =
      .ok { edges := [⟨.code (draw .canon), "shared code"⟩,
        ⟨.constructed (.array (.ofWellKnown w) none), "newarr"⟩] } := by
  have hclosed : (Ty.ofWellKnown w).hasParams = false := by rcases hw with rfl | rfl <;> rfl
  have hdepth : outcome ((setting x).checkMethod (draw (.ofWellKnown w))) = .ok () := by
    rcases hw with rfl | rfl <;> rfl
  rw [(setting x).outcome_expand_shadow_singleton hdepth (body?_draw _)
    (outcome_makeArray x hclosed false), Setting.value_codeOwner]
  rcases hw with rfl | rfl <;> rfl

/-- The shared code leaves this to the methods that run on it. -/
theorem expand_sharedDraw : outcome ((setting x).expand (.code (draw .canon))) = .ok {} :=
  (setting x).outcome_expand_code_singleton rfl rfl (body?_draw _) (outcome_makeArray x rfl true)

/-- Arrays that exist need their type data and that of their elements. -/
theorem expand_array {w : WellKnown} (hw : w = .object ∨ w = .string) :
    outcome ((setting x).expand (.constructed (.array (.ofWellKnown w) none))) =
      .ok { edges := [⟨.typeData (.array (.ofWellKnown w) none), "type handle"⟩,
        ⟨.typeData (.ofWellKnown w), "array element"⟩] } := by
  rcases hw with rfl | rfl <;> rfl

/-- Drawing a circle needs nothing. -/
theorem expand_drawCircle : outcome ((setting x).expand (.code drawCircle.method)) = .ok {} := by
  rw [Setting.outcome_expand_code, body?_drawCircle]
  rfl

end Expand

/-- By their declaration circles are sealed. -/
theorem expand_showCircle : outcome ((setting .declared).expand (.code showCircle.method)) =
    .ok { edges := [⟨.code drawCircle.method, "devirtualized call"⟩] } := by
  have honly : outcome (((setting .declared).importer showCircle.method true).onlyTarget?
      drawShape.method (some (.decl circle))) = .ok (some drawCircle.method) := by
    have hsealed : ((setting .declared).importer showCircle.method true).sealsReceiver
        drawShape.method (some (.decl circle)) = true := rfl
    have hresolve : outcome (((setting .declared).importer showCircle.method
        true).setting.program.resolve drawShape.method
          ((some (.decl circle)).getD drawShape.method.owner)) = .ok drawCircle.method :=
      resolve_circle
    rw [Importer.outcome_onlyTarget?, hsealed, if_pos rfl, hresolve]
    rfl
  have hcode : (((setting .declared).importer showCircle.method true).code drawCircle.method
      "devirtualized call").value = [⟨.code drawCircle.method, "devirtualized call"⟩] := by
    rw [Importer.value_code rfl rfl, Setting.value_codeNode_method]
    rfl
  rw [← hcode]
  exact (setting .declared).outcome_expand_code_singleton rfl rfl body?_showCircle
    (Importer.outcome_callvirt_of_target rfl rfl rfl 0 honly)

/-- There are only frames and arrays, and sealing is concluded from that. -/
structure OnlyFrames (x : Sealing) (g : NodeGraph) : Prop where
  ofObjects : x.OfObjects program g
  objects : ∀ c, g.isMarked (.constructed c) = true →
    c = frameOf (.ofWellKnown .string) ∨ c.isArray = true

namespace OnlyFrames

variable {x : Sealing} {g : NodeGraph} (h : OnlyFrames x g)
include h

/-- If there are only frames and arrays, no object is compared as a class without parameters. -/
theorem key_ne {c : Ty} (hc : g.isMarked (.constructed c) = true) (d : TypeDecl) :
    (Constructed.key c).value ≠ (Constructed.key (.decl d)).value := by
  intro hkey
  rcases h.objects c hc with rfl | harray
  · simp [Constructed.key, Ty.isArray, Ty.canonical, frameOf] at hkey
  · cases c with
    | array e r =>
      simp [Constructed.key, Ty.isArray, Ty.canonical] at hkey
    | _ => cases harray

/-- If there are only frames and arrays, classes without parameters are not sealed. -/
theorem sealsType_decl (d : TypeDecl) : (x.sealsType (.decl d)).value = false := by
  rw [Bool.eq_false_iff]
  intro hsealed
  obtain ⟨c, hc, hkey⟩ := h.ofObjects.type hsealed
  exact h.key_ne hc d hkey

/-- If there are only frames and arrays, drawing a shape is not sealed. -/
theorem sealsMethod_drawShape : (x.sealsMethod program drawShape.method).value = false := by
  rw [Bool.eq_false_iff]
  intro hsealed
  obtain ⟨c, hc, hkey⟩ := h.ofObjects.method hsealed
  exact h.key_ne hc shape hkey

/-- Drawing a circle has to be dispatched. -/
theorem expand_showCircle : outcome ((setting x).expand (.code showCircle.method)) =
    .ok { edges := [⟨.slot drawShape.method, "callvirt"⟩] } := by
  have honly : outcome (((setting x).importer showCircle.method true).onlyTarget?
      drawShape.method (some (.decl circle))) = .ok none := by
    rw [Importer.outcome_onlyTarget?]
    simp [Importer.sealsReceiver, Importer.targetGiven, Setting.importer, h.sealsType_decl,
      h.sealsMethod_drawShape]
  exact (setting x).outcome_expand_code_singleton rfl rfl body?_showCircle
    (Importer.outcome_callvirt_of_slot rfl rfl rfl 0 honly (slotFor_drawShape x))

/-- If there are only frames and arrays, the listing has no target for a call that draws a shape. -/
theorem callTarget?_drawShape :
    (Listing.callTarget? program x drawShape.method).run.value = .ok none := by
  have howner : (liftM (x.sealsType drawShape.method.owner) : Generated Bool).run.value =
      .ok false := congrArg Except.ok (h.sealsType_decl shape)
  have hmethod : (liftM (x.sealsMethod program drawShape.method) : Generated Bool).run.value =
      .ok false := congrArg Except.ok h.sealsMethod_drawShape
  have hvirtual : drawShape.method.isVirtual = true := rfl
  have hclass : drawShape.method.owner.isInterface = false := rfl
  have hcode : drawShape.method.isAbstract = false := rfl
  simp only [Listing.callTarget?, hvirtual, hclass, hcode, Bool.not_true, Bool.false_eq_true,
    if_false]
  rw [ExceptT.run_bind, Recorded.value_bind, howner]
  dsimp only
  rw [if_neg Bool.false_ne_true, ExceptT.run_bind, Recorded.value_bind, hmethod]
  rfl

/-- If there are only frames and arrays, code can be made for showing a circle. -/
theorem generate_showCircle (w : WellKnown) :
    ((compilation w).generate x showCircle.method).value.2 = none := by
  have hbody : (compilation w).program.body? showCircle.method =
      some [.callvirt (.known drawShape.method) (some (.known (.decl circle)))] :=
    body?_showCircle
  have hline : (Listing.line program x showCircle.method
      (.callvirt (.known drawShape.method) (some (.known (.decl circle))))).run.value =
      .ok { text := "callvirt " ++ drawShape.method.displayName } := by
    simp only [Listing.line, Listing.known, pure_bind]
    rw [ExceptT.run_bind, Recorded.value_bind, h.callTarget?_drawShape]
    rfl
  have hcode : ((compilation w).generator (compilation w).program x showCircle.method
      [.callvirt (.known drawShape.method) (some (.known (.decl circle)))]).run.value =
      .ok (Listing.code [{ text := "callvirt " ++ drawShape.method.displayName }]) := by
    simp only [compilation, Generator.listing, List.mapM_cons, List.mapM_nil]
    rw [ExceptT.run_map, Recorded.value_map, ExceptT.run_bind, Recorded.value_bind, hline]
    rfl
  rw [Compilation.generate, hbody]
  dsimp only
  rw [Recorded.value_bind, hcode]
  rfl

end OnlyFrames

/-- Code can be made for drawing frames of any references. -/
theorem generate_draw (w : WellKnown) (x : Sealing) :
    ((compilation w).generate x (draw .canon)).value.2 = none := by
  have hbody : (compilation w).program.body? (draw .canon) =
      some [.newarr (.known (.param .type 0))] := body?_draw _
  rw [Compilation.generate, hbody]
  rfl

/-! #### The scan and the compilation -/

variable {w : WellKnown}

/-- What is needed to draw a frame, and for there to be frames for texts. -/
def frameNodes (w : WellKnown) : List Node :=
  [.constructed (frameOf (.ofWellKnown .string)), .shadow (draw (.ofWellKnown w)),
    .code (draw .canon), .constructed (.array (.ofWellKnown w) none),
    .typeData (.array (.ofWellKnown w) none), .typeData (.ofWellKnown .array),
    .typeData (.ofWellKnown w), .typeData (frameOf (.ofWellKnown .string)),
    .typeData (.decl shape), .typeData .object]

/-- What the scan needs. -/
def scanNodes (w : WellKnown) : List Node :=
  .code showCircle.method :: .code drawCircle.method :: frameNodes w

/-- What the compilation needs. -/
def compileNodes (w : WellKnown) : List Node :=
  .code showCircle.method :: .slot drawShape.method :: (frameNodes w ++ frameNodes .string)

/-- What the nodes of a frame need is among them, except for what a call through the slot of drawing
leads to. -/
theorem expand_frameNodes (x : Sealing) (hw : w = .object ∨ w = .string) :
    ∃ ys, List.Forall₂ (fun n y => outcome ((setting x).expand n) = .ok y) (frameNodes w) ys ∧
      ∀ y ∈ ys, (∀ e ∈ y.edges, e.target ∈ frameNodes w) ∧
        ∀ e ∈ y.conditional, e.condition = .slot drawShape.method ∧
          e.target = .shadow (draw (.ofWellKnown .string)) := by
  have harrayData : outcome ((setting x).expand (.typeData (.array (.ofWellKnown w) none))) =
      .ok { edges := [⟨.typeData (.ofWellKnown .array), "base type"⟩,
        ⟨.typeData (.ofWellKnown w), "parameter type"⟩] } := by
    rcases hw with rfl | rfl <;> rfl
  have hitem : ∃ y, outcome ((setting x).expand (.typeData (.ofWellKnown w))) = .ok y ∧
      (∀ e ∈ y.edges, e.target = .typeData .object) ∧ y.conditional = [] := by
    rcases hw with rfl | rfl
    · exact ⟨_, (setting x).outcome_expand_typeData none rfl rfl rfl, by simp, rfl⟩
    · exact ⟨_, (setting x).outcome_expand_typeData (some .object) rfl rfl rfl, by simp, rfl⟩
  obtain ⟨y, hy, hedges, hconditional⟩ := hitem
  have harray := (setting x).outcome_expand_typeData (t := .ofWellKnown .array) (some .object)
    rfl rfl rfl
  have hframe := (setting x).outcome_expand_typeData (t := frameOf (.ofWellKnown .string))
    (some (.decl shape)) rfl rfl rfl
  have hshape := (setting x).outcome_expand_typeData (t := .decl shape) (some .object) rfl rfl rfl
  have hobject := (setting x).outcome_expand_typeData (t := .object) none rfl rfl rfl
  refine ⟨_, .cons (expand_frame x) <| .cons (expand_draw x hw) <| .cons (expand_sharedDraw x) <|
    .cons (expand_array x hw) <| .cons harrayData <| .cons harray <| .cons hy <| .cons hframe <|
    .cons hshape <| .cons hobject .nil, ?_⟩
  have hy' : ∀ e ∈ y.edges, e.target ∈ frameNodes w := fun e he => by
    simp [hedges e he, frameNodes]
  simpa [frameNodes, hconditional] using hy'

/-- The scan needs what is listed. -/
theorem selfContained_scan (hw : w = .object ∨ w = .string) :
    (setting .declared).SelfContained (scanNodes w) := by
  obtain ⟨ys, hys, hneeds⟩ := expand_frameNodes .declared hw
  refine .of_plain (.cons expand_showCircle <| .cons (expand_drawCircle _) hys) ?_
    (by simp [scanNodes, frameNodes])
  refine List.forall_mem_cons.2 ⟨by simp [scanNodes], List.forall_mem_cons.2 ⟨by simp, ?_⟩⟩
  intro y hy
  refine ⟨fun e he => ?_, fun e he hcondition => ?_⟩
  · exact List.mem_cons_of_mem _ (List.mem_cons_of_mem _ ((hneeds y hy).1 e he))
  · rw [((hneeds y hy).2 e he).1] at hcondition
    simp [scanNodes, frameNodes] at hcondition

/-- If showing a circle is dispatched, the compilation needs what is listed. -/
theorem selfContained_compile (hw : w = .object ∨ w = .string) {x : Sealing}
    (hshown : outcome ((setting x).expand (.code showCircle.method)) =
      .ok { edges := [⟨.slot drawShape.method, "callvirt"⟩] }) :
    (setting x).SelfContained (compileNodes w) := by
  obtain ⟨ys, hys, hneeds⟩ := expand_frameNodes x hw
  obtain ⟨zs, hzs, hneeds'⟩ := expand_frameNodes x (w := .string) (.inr rfl)
  have hdrawn : ∀ n, n = .shadow (draw (.ofWellKnown .string)) → n ∈ compileNodes w := by
    rintro _ rfl
    simp [compileNodes, frameNodes]
  refine .of_plain (.cons hshown <| .cons rfl <| List.rel_append hys hzs) ?_
    (by simp [compileNodes, frameNodes])
  refine List.forall_mem_cons.2 ⟨by simp [compileNodes], List.forall_mem_cons.2 ⟨by simp, ?_⟩⟩
  refine List.forall_mem_append.2 ⟨fun y hy => ⟨fun e he => ?_, fun e he _ => ?_⟩,
    fun y hy => ⟨fun e he => ?_, fun e he _ => ?_⟩⟩
  · simp [compileNodes, (hneeds y hy).1 e he]
  · exact hdrawn _ ((hneeds y hy).2 e he).2
  · simp [compileNodes, (hneeds' y hy).1 e he]
  · exact hdrawn _ ((hneeds' y hy).2 e he).2

/-- A marking from the roots succeeds, and marks the roots and nothing beyond the list. -/
theorem exists_marking (hw : w = .object ∨ w = .string) {x : Sealing} {L : List Node}
    (hL : (setting x).SelfContained L) (hshown : .code showCircle.method ∈ L)
    (hframes : ∀ n ∈ frameNodes w, n ∈ L) :
    ∃ fuel g, outcome ((setting x).analyze fuel (roots w) none) = .ok (some g) ∧
      (∀ n, g.isMarked n = true → n ∈ L) ∧ g.isMarked (.code showCircle.method) = true ∧
      g.isMarked (.constructed (frameOf (.ofWellKnown .string))) = true ∧
      g.isMarked (.shadow (draw (.ofWellKnown w))) = true := by
  have hdraw : outcome ((setting x).rootNodes (.method (draw (.ofWellKnown w)))) =
      .ok [.shadow (draw (.ofWellKnown w))] := by
    have hclosed : (draw (.ofWellKnown w)).isOpen = false := by rcases hw with rfl | rfl <;> rfl
    simp [Setting.rootNodes, hclosed, codeNode_draw x hw]
  obtain ⟨fuel, g, hg, hroots, hnodes⟩ := hL.exists_analyze (roots w)
    (.cons ((setting x).rootNodes_method rfl rfl) <| .cons rfl <| .cons hdraw .nil) (by
      simpa [hshown] using ⟨hframes _ (by simp [frameNodes]), hframes _ (by simp [frameNodes])⟩)
  exact ⟨fuel, g, hg, hnodes, hroots _ (by simp), hroots _ (by simp), hroots _ (by simp)⟩

/-- Of what the scan needs, only frames and arrays are objects. -/
theorem onlyFrames_of_scan {scan : Scan}
    (hnodes : ∀ n, scan.graph.isMarked n = true → n ∈ scanNodes w) :
    OnlyFrames (scan.sealing program).value scan.graph := by
  refine ⟨scan.ofObjects_sealing program, fun c hc => ?_⟩
  have hmem := hnodes _ hc
  simp only [scanNodes, frameNodes, List.mem_cons, Node.constructed.injEq, List.not_mem_nil,
    or_false, reduceCtorEq, false_or] at hmem
  rcases hmem with rfl | rfl
  · exact .inl rfl
  · exact .inr rfl

/-- If showing a circle is dispatched and there are frames for texts, they may be what is shown, and
drawing them makes arrays of texts. -/
theorem isMarked_array {x : Sealing} {g : NodeGraph} (h : (setting x).FixedPoint (roots w) g)
    (hcircle : outcome ((setting x).expand (.code showCircle.method)) =
      .ok { edges := [⟨.slot drawShape.method, "callvirt"⟩] })
    (hshown : g.isMarked (.code showCircle.method) = true)
    (hframe : g.isMarked (.constructed (frameOf (.ofWellKnown .string))) = true) :
    g.isMarked (.constructed (.array (.ofWellKnown .string) none)) = true := by
  have hslot : g.isMarked (.slot drawShape.method) = true :=
    h.edge hshown hcircle _ (List.mem_singleton_self _)
  have hdrawn : g.isMarked (.shadow (draw (.ofWellKnown .string))) = true :=
    h.conditional hframe (expand_frame _) _ (List.mem_singleton_self _) hslot
  exact h.edge hdrawn (expand_draw _ (.inr rfl)) _
    (List.mem_cons_of_mem _ (List.mem_singleton_self _))

/-- The compilation of frames succeeds, and draws frames for texts. -/
theorem exists_compile (hw : w = .object ∨ w = .string) : ∃ scanFuel scan fuel r,
    outcome ((compilation w).scan scanFuel) = .ok (some scan) ∧
      outcome ((compilation w).compile fuel scan) = .ok (some r) ∧
      scan.graph.isMarked (.shadow (draw (.ofWellKnown w))) = true ∧
      (∀ n, scan.graph.isMarked n = true → n ∈ scanNodes w) ∧
      (∀ n, r.graph.isMarked n = true → n ∈ compileNodes w) ∧
      r.graph.isMarked (.constructed (.array (.ofWellKnown .string) none)) = true := by
  obtain ⟨scanFuel, g, hg, hscanned, hshown, -, hdrawn⟩ :=
    exists_marking hw (selfContained_scan hw) List.mem_cons_self
      fun n hn => List.mem_cons_of_mem _ (List.mem_cons_of_mem _ hn)
  let scan : Scan := ⟨g, roots w⟩
  have honly := @onlyFrames_of_scan w scan hscanned
  have hcircle := honly.expand_showCircle
  obtain ⟨fuel, g', hg', hcompiled, hshown', hframe', -⟩ :=
    exists_marking hw (selfContained_compile hw hcircle) List.mem_cons_self
      fun n hn => by simp [compileNodes, hn]
  have hmarking : outcome ((compilation w).marking fuel scan) = .ok (some g') := hg'
  have hcodes : ∀ m, g'.isMarked (.code m) = true → m = showCircle.method ∨ m = draw .canon := by
    intro m hm
    simpa [compileNodes, frameNodes] using hcompiled _ hm
  have hshared : g.isMarked (.code (draw .canon)) = true :=
    (Setting.fixedPoint_of_analyze hg).edge hdrawn (expand_draw _ hw) _ List.mem_cons_self
  -- the code that is marked was marked by the scan too, and can be made
  obtain ⟨r, hr, rfl⟩ := Compilation.exists_compile hmarking
    (fun m hm => by
      rcases hcodes m hm with rfl | rfl
      · exact hshown
      · exact hshared)
    (fun m hm => by
      rcases hcodes m hm with rfl | rfl
      · exact honly.generate_showCircle w
      · exact generate_draw w _)
  exact ⟨scanFuel, scan, fuel, r, Program.scan_of_analyze hg, hr, hdrawn, hscanned, hcompiled,
    isMarked_array (Setting.fixedPoint_of_analyze hg') hcircle hshown' hframe'⟩

/-- If the scan draws a frame for texts too, it knows of arrays of texts. -/
theorem compile_allocates_within_iff_string : ∃ scanFuel scan fuel r,
    outcome ((compilation .string).scan scanFuel) = .ok (some scan) ∧
      (compilation .string).options.verifyScan = true ∧
      outcome ((compilation .string).compile fuel scan) = .ok (some r) ∧
      r.graph.isMarked (.constructed (.array (.ofWellKnown .string) none)) = true ∧
      ∀ c, r.graph.isMarked (.constructed c) = true →
        scan.graph.isMarked (.constructed c) = true := by
  obtain ⟨scanFuel, scan, fuel, r, hscan, hr, hdrawn, -, hcompiled, harray⟩ :=
    exists_compile (w := .string) (.inr rfl)
  refine ⟨scanFuel, scan, fuel, r, hscan, rfl, hr, harray, ?_⟩
  apply (Compilation.compile_allocates_within_iff hscan rfl hr).1.2
  intro m c hm hmissed _
  have hmem := hcompiled _ hm
  simp only [compileNodes, frameNodes, List.mem_cons, List.mem_append, Node.shadow.injEq,
    List.not_mem_nil, or_false, reduceCtorEq, false_or, or_self] at hmem
  rw [hmem, hdrawn] at hmissed
  cases hmissed

/-- If the scan draws a frame for objects only, the compilation makes an array of texts that the
scan does not know of, and nothing is reported: the code that draws frames is shared. -/
theorem exists_compile_allocating_more : ∃ scanFuel scan fuel r,
    outcome ((compilation .object).scan scanFuel) = .ok (some scan) ∧
      (compilation .object).options.verifyScan = true ∧
      outcome ((compilation .object).compile fuel scan) = .ok (some r) ∧
      r.graph.isMarked (.constructed (.array (.ofWellKnown .string) none)) = true ∧
      scan.graph.isMarked (.constructed (.array (.ofWellKnown .string) none)) = false := by
  obtain ⟨scanFuel, scan, fuel, r, hscan, hr, -, hscanned, -, harray⟩ :=
    exists_compile (w := .object) (.inl rfl)
  refine ⟨scanFuel, scan, fuel, r, hscan, rfl, hr, harray, ?_⟩
  rw [Bool.eq_false_iff]
  intro hmarked
  have hmem := hscanned _ hmarked
  simp [scanNodes, frameNodes, frameOf, Ty.ofWellKnown, WellKnown.decl, WellKnown.name] at hmem

end Framing

end AheadOfTime
