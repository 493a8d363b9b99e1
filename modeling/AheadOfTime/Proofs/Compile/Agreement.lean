import AheadOfTime.Compile.Run
import AheadOfTime.Proofs.Scan.Resealing
import AheadOfTime.Proofs.Sealing

/-!
# When a compilation stays within its scan

A compilation marks once more what is needed, now knowing of which types objects exist.  It stays
within what the scan marked exactly if every virtual call is kept.  Calls that the scan dispatched
usually are, as what runs on existing objects was marked as an override.  But knowing which objects
exist can also make a call less certain: a receiver whose declaration is sealed, but of which no
objects exist, seals nothing any more.  Then a compilation reaches methods that the scan did not.
-/

set_option autoImplicit false

namespace AheadOfTime

open Marking

/-! ## Types of which objects exist -/

namespace Scan

variable {s : Scan} {P : Program}

/-- A scan seals by the types of which it has marked objects. -/
theorem value_sealing (s : Scan) (P : Program) :
    (s.sealing P).value = .constructed (Constructed.ofTypes P s.constructedTypes).value := by
  simp [sealing]

/-- A type whose key is known is compared as one of which objects are marked. -/
theorem exists_of_mem_keys {t : Ty} (h : (Constructed.key t).value ∈
      (Constructed.ofTypes P s.constructedTypes).value.keys.toList) :
    ∃ c, s.graph.isMarked (.constructed c) = true ∧
      (Constructed.key c).value = (Constructed.key t).value := by
  obtain ⟨c, hc, hkey⟩ := Constructed.mem_keys_ofTypes.1 h
  exact ⟨c, mem_constructedTypes.1 hc, hkey⟩

/-- A compilation concludes sealing from the objects of its scan. -/
theorem ofObjects_sealing (s : Scan) (P : Program) :
    (s.sealing P).value.OfObjects P s.graph := by
  rw [value_sealing]
  constructor
  · intro t h
    obtain ⟨-, -, hkey, -⟩ := Constructed.value_sealsType.1 h
    exact exists_of_mem_keys hkey
  · intro m h
    obtain ⟨hkey, -⟩ := Constructed.value_sealsMethod.1 h
    exact exists_of_mem_keys hkey

end Scan

/-! ## Compilations -/

namespace Compilation

variable (C : Compilation)

/-- The setting of the scan. -/
def scanSetting : Setting :=
  { program := C.program, options := C.options }

/-- The marking that a compilation makes knows the types of which objects exist in the scan. -/
def marking (fuel : Nat) (scan : Scan) : Attempt (Option NodeGraph) :=
  (C.scanSetting.reseal (scan.sealing C.program).value).analyze fuel scan.roots C.cancelled

/-- A method that is missed is marked though the scan did not mark it. -/
theorem isMarked_of_missedBy? {g : NodeGraph} {scan : Scan} {m : Method}
    (h : missedBy? g scan = some m) :
    g.isMarked (.code m) = true ∧ scan.graph.isMarked (.code m) = false := by
  obtain ⟨n, hn, hm⟩ := List.exists_of_findSome?_eq_some h
  cases n with
  | code m' =>
    dsimp only at hm
    split at hm
    · cases hm
    · next hnot =>
      cases hm
      exact ⟨(g.nodes.contains_iff_mem _).2 hn, Bool.eq_false_iff.2 hnot⟩
  | _ => cases hm

/-- If the marking reached code that the scan did not mark, some method is missed. -/
theorem exists_missedBy? {g : NodeGraph} {scan : Scan} {m : Method}
    (hm : g.isMarked (.code m) = true) (hscan : scan.graph.isMarked (.code m) = false) :
    ∃ m', missedBy? g scan = some m' := by
  rw [← Option.ne_none_iff_exists']
  intro hnone
  have hnode := List.findSome?_eq_none_iff.1 hnone (.code m) ((g.nodes.contains_iff_mem _).1 hm)
  simp [hscan] at hnode

/-- What is left to do once everything is marked: to make the code. -/
def assemble (scan : Scan) (g : NodeGraph) : Attempt (Option Compiled) := do
  let sealing := (scan.sealing C.program).value
  let S := C.scanSetting.reseal sealing
  let required ← (requiredMethods scan.roots).mapM fun m => liftM (S.codeOwner m)
  let methods := g.nodes.toList.filterMap fun
    | .code m => some m
    | _ => none
  let outcomes ← methods.mapM fun m => liftM (C.generate sealing m)
  let failures := (outcomes.filterMap (·.2)).mergeSort fun a b => !(b.name < a.name : Bool)
  match failures.find? fun f => required.contains f.method with
  | some fatal =>
    let stubbed := failures.filter fun f => !required.contains f.method
    throw (.compilationFailed fatal.error (stubbed.map (·.name)))
  | none =>
    pure (some
      { methods := latestBySymbol (outcomes.map (·.1)), failures, graph := g, setting := S })

/-- A compilation marks, compares the marking with the scan if it should, and then makes the
code. -/
theorem outcome_compile (fuel : Nat) (scan : Scan) :
    outcome (C.compile fuel scan) = outcome (C.marking fuel scan) >>= fun g? =>
      match g? with
      | none => .ok none
      | some g =>
        match if C.options.verifyScan then missedBy? g scan else none with
        | some m => .error (.scannerMismatch m.displayName)
        | none => outcome (C.assemble scan g) := by
  unfold compile
  rw [outcome_bind, outcome_liftM, ok_bind, outcome_bind]
  congr 1
  funext g?
  cases g? with
  | none => rfl
  | some g =>
    dsimp only
    cases C.options.verifyScan with
    | false => rfl
    | true =>
      simp only [if_true]
      cases missedBy? g scan with
      | none => rfl
      | some m => rfl

/-- Making the code fails only by failing to compile a method. -/
theorem assemble_eq_error {scan : Scan} {g : NodeGraph} {e : Diagnostic}
    (h : outcome (C.assemble scan g) = .error e) :
    ∃ cause stubbed, e = .compilationFailed cause stubbed := by
  unfold assemble at h
  simp only [outcome_bind, outcome_mapM, outcome_liftM] at h
  rw [mapM_ok fun _ _ => rfl, ok_bind, mapM_ok fun _ _ => rfl, ok_bind] at h
  split at h
  · cases h
    exact ⟨_, _, rfl⟩
  · cases h

/-- A compilation reports that the scan missed a method only if its marking reached one that the
scan did not mark. -/
theorem exists_missed_of_scannerMismatch {fuel : Nat} {scan : Scan} {name : String}
    (h : outcome (C.compile fuel scan) = .error (.scannerMismatch name)) :
    ∃ g m, outcome (C.marking fuel scan) = .ok (some g) ∧ g.isMarked (.code m) = true ∧
      scan.graph.isMarked (.code m) = false := by
  rw [outcome_compile] at h
  rcases bind_eq_error.1 h with h | ⟨g?, hg, h⟩
  · rcases Setting.analyze_eq_error h with hfault | ⟨name', hname⟩ | hcancelled
    · cases hfault
    · cases hname
    · cases hcancelled
  · cases g? with
    | none => cases h
    | some g =>
      dsimp only at h
      split at h
      · next m hm =>
        split at hm
        · exact ⟨g, m, hg, isMarked_of_missedBy? hm⟩
        · cases hm
      · obtain ⟨cause, stubbed, he⟩ := C.assemble_eq_error h
        cases he

/-- A compilation marks only what its scan marked exactly if it keeps every virtual call in the
bodies that both of them marked; and then it never reports a method that the scan missed. -/
theorem compile_within_scan {scanFuel fuel : Nat} {scan : Scan}
    (hscan : outcome (C.scan scanFuel) = .ok (some scan)) (hP : C.program.WellFormed)
    (hbases : C.program.HasClassBases) :
    (∀ g, outcome (C.marking fuel scan) = .ok (some g) →
      ((∀ n, g.isMarked n = true → scan.graph.isMarked n = true) ↔
        C.scanSetting.KeepsCalls scan.graph g (scan.sealing C.program).value)) ∧
      ((∀ g, outcome (C.marking fuel scan) = .ok (some g) →
        C.scanSetting.KeepsCalls scan.graph g (scan.sealing C.program).value) →
        ∀ name, outcome (C.compile fuel scan) ≠ .error (.scannerMismatch name)) := by
  obtain ⟨hroots, hfixed⟩ := Program.scan_eq_ok hscan
  have hwithin : ∀ g, outcome (C.marking fuel scan) = .ok (some g) →
      ((∀ n, g.isMarked n = true → scan.graph.isMarked n = true) ↔
        C.scanSetting.KeepsCalls scan.graph g (scan.sealing C.program).value) := by
    intro g hg
    rw [marking, hroots] at hg
    exact Setting.within_iff_keepsCalls hfixed hP hbases (scan.ofObjects_sealing _)
      (Setting.fixedPoint_of_analyze hg)
  refine ⟨hwithin, fun hkept name hname => ?_⟩
  obtain ⟨g, m, hg, hmarked, hmissed⟩ := C.exists_missed_of_scannerMismatch hname
  rw [(hwithin g hg).2 (hkept g hg) _ hmarked] at hmissed
  cases hmissed

end Compilation

namespace Drawing

/-- Squares exist, and a square is drawn. -/
def squareCompilation : Compilation := { program, roots := squareRoots }

/-- Squares are not compared as shapes. -/
theorem key_square_ne_key_shape :
    (Constructed.key (.decl square)).value ≠ (Constructed.key (.decl shape)).value := by
  simp [Constructed.key, Ty.isArray, Ty.canonical, square, shape]

/-- Where only squares exist, a compilation keeps the call that draws a square. -/
theorem keepsCalls_square {scan : Scan}
    (hnodes : ∀ n, scan.graph.isMarked n = true → n ∈ squareNodes) (g : NodeGraph) :
    squareCompilation.scanSetting.KeepsCalls scan.graph g (scan.sealing program).value := by
  have hsquares : ∀ c, scan.graph.isMarked (.constructed c) = true → c = .decl square := by
    intro c hc
    simpa [squareNodes] using hnodes _ hc
  have hdraws : squareCompilation.scanSetting.RunsOn drawShape.method (.decl square)
      drawSquare.method :=
    ⟨rfl, resolve_square, isVirtualDefinition_drawShape.declared,
      .inl ⟨rfl, rfl, answersCall_square⟩⟩
  intro n I body hn _ hbody i hi m r hmakes _
  have hmem := hnodes n hn
  cases hbody with
  | @code m' body _ hbody =>
    simp only [squareNodes, List.mem_cons, Node.code.injEq, List.not_mem_nil, or_false,
      reduceCtorEq, false_or] at hmem
    rcases hmem with rfl | rfl
    · cases body?_showSquare.symm.trans hbody
      rw [List.mem_singleton.1 hi] at hmakes
      cases hmakes with
      | callvirt hm hr =>
        cases hm
        cases hr
        refine .dispatched rfl ?_ ?_ ?_
        · intro v _ hskips
          cases hskips
        · intro target htarget _
          cases resolve_square.symm.trans htarget
          refine ⟨rfl, .inr fun c hc _ => ?_⟩
          rw [hsquares c hc]
          exact hdraws
        · -- Squares are not compared as shapes, and there are no other objects.
          intro _ _
          refine ⟨rfl, .inr fun c hc hkey => ?_⟩
          rw [hsquares c hc] at hkey
          exact absurd hkey key_square_ne_key_shape
    · cases body?_drawSquare.symm.trans hbody
      rw [List.mem_singleton.1 hi] at hmakes
      cases hmakes
  | shadow hbody => simp [squareNodes] at hmem

/-- A compilation in which a square is drawn stays within its scan, and agrees with it. -/
theorem compile_within_scan_square : ∃ scanFuel scan,
    outcome (squareCompilation.scan scanFuel) = .ok (some scan) ∧
      (∀ g, squareCompilation.scanSetting.KeepsCalls scan.graph g (scan.sealing program).value) ∧
      ∀ fuel, (∀ g, outcome (squareCompilation.marking fuel scan) = .ok (some g) →
          ∀ n, g.isMarked n = true → scan.graph.isMarked n = true) ∧
        ∀ name, outcome (squareCompilation.compile fuel scan) ≠ .error (.scannerMismatch name) := by
  obtain ⟨scanFuel, scan, hscan, -, -, hnodes⟩ := exists_scan_square
  refine ⟨scanFuel, scan, hscan, fun g => keepsCalls_square hnodes g, fun fuel => ?_⟩
  obtain ⟨hwithin, hnever⟩ := @Compilation.compile_within_scan squareCompilation scanFuel fuel scan
    hscan wellFormed hasClassBases
  exact ⟨fun g hg => (hwithin g hg).2 (keepsCalls_square hnodes g),
    hnever fun g _ => keepsCalls_square hnodes g⟩

/-- Drawing a circle does nothing. -/
theorem body?_drawCircle : program.body? drawCircle.method = some [.ret] := by
  simp [program, showSquare, showCircle, drawSquare, drawCircle, MethodDecl.ofName]

/-- To show a circle is to draw a shape that is a circle. -/
theorem body?_showCircle : program.body? showCircle.method =
    some [.callvirt (.known drawShape.method) (some (.known (.decl circle)))] := by
  simp [program]

/-- Drawing a circle occupies the slot of drawing a shape. -/
theorem slotOf_drawCircle : outcome (program.slotOf drawCircle.method) = .ok drawShape.method :=
  slotOf_draw rfl rfl rfl rfl rfl

/-- On a circle, drawing a shape leads to drawing a circle. -/
theorem resolve_circle :
    outcome (program.resolve drawShape.method (.decl circle)) = .ok drawCircle.method := by
  rw [program.outcome_resolve_of_class rfl]
  exact Program.classTarget_of_slotFiller? (by decide) rfl slotOf_drawShape
    (Program.slotFiller?_of_methods rfl rfl rfl rfl slotOf_drawCircle)

/-- Drawing a circle needs nothing. -/
theorem expand_drawCircle : outcome (setting.expand (.code drawCircle.method)) = .ok {} := by
  rw [setting.outcome_expand_code, body?_drawCircle]
  rfl

/-- By their declaration circles are sealed, so that drawing a circle goes straight to how circles
are drawn. -/
theorem expand_showCircle : outcome (setting.expand (.code showCircle.method)) =
    .ok { edges := [⟨.code drawCircle.method, "devirtualized call"⟩] } := by
  have honly : outcome ((setting.importer showCircle.method true).onlyTarget? drawShape.method
      (some (.decl circle))) = .ok (some drawCircle.method) := by
    have hsealed : (setting.importer showCircle.method true).sealsReceiver drawShape.method
        (some (.decl circle)) = true := rfl
    have hresolve : outcome ((setting.importer showCircle.method true).setting.program.resolve
        drawShape.method ((some (.decl circle)).getD drawShape.method.owner)) =
        .ok drawCircle.method := resolve_circle
    rw [Importer.outcome_onlyTarget?, hsealed, if_pos rfl, hresolve]
    rfl
  have hcode : ((setting.importer showCircle.method true).code drawCircle.method
      "devirtualized call").value = [⟨.code drawCircle.method, "devirtualized call"⟩] := by
    rw [Importer.value_code rfl rfl, Setting.value_codeNode_method]
    rfl
  rw [← hcode]
  exact setting.outcome_expand_code_singleton rfl rfl body?_showCircle
    (Importer.outcome_callvirt_of_target rfl rfl rfl 0 honly)

/-- If there are only squares, drawing a circle has to be dispatched. -/
theorem expand_showCircle_reseal {x : Sealing} {g : NodeGraph} (hx : x.OfObjects program g)
    (hsquares : ∀ c, g.isMarked (.constructed c) = true → c = .decl square) :
    outcome ((setting.reseal x).expand (.code showCircle.method)) =
      .ok { edges := [⟨.slot drawShape.method, "callvirt"⟩] } := by
  have hcircle : (x.sealsType (.decl circle)).value = false := by
    rw [Bool.eq_false_iff]
    intro hsealed
    obtain ⟨c, hc, hkey⟩ := hx.type hsealed
    rw [hsquares c hc] at hkey
    simp [Constructed.key, Ty.isArray, Ty.canonical, square, circle] at hkey
  have hshape : (x.sealsMethod program drawShape.method).value = false := by
    rw [Bool.eq_false_iff]
    intro hsealed
    obtain ⟨c, hc, hkey⟩ := hx.method hsealed
    rw [hsquares c hc] at hkey
    exact key_square_ne_key_shape hkey
  have honly : outcome (((setting.reseal x).importer showCircle.method true).onlyTarget?
      drawShape.method (some (.decl circle))) = .ok none := by
    rw [Importer.outcome_onlyTarget?]
    simp [Importer.sealsReceiver, Importer.targetGiven, Setting.importer, Setting.reseal, hcircle,
      hshape]
  exact (setting.reseal x).outcome_expand_code_singleton rfl rfl body?_showCircle
    (Importer.outcome_callvirt_of_slot rfl rfl rfl 0 honly slotFor_drawShape)

/-- A circle is drawn, though objects exist only of squares. -/
def circleRoots : List Root :=
  [{ kind := .method showCircle.method, reason := "entry point" },
    { kind := .constructed (.decl square), reason := "factory" }]

def circleCompilation : Compilation := { program, roots := circleRoots }

/-- What the scan needs: how squares are drawn is not among it. -/
def circleNodes : List Node :=
  [.code showCircle.method, .code drawCircle.method, .constructed (.decl square),
    .typeData (.decl square), .typeData (.decl shape), .typeData .object]

/-- The scan needs what is listed. -/
theorem selfContained_circle : setting.SelfContained circleNodes := by
  have hsquare := setting.outcome_expand_typeData (t := .decl square) (some (.decl shape)) rfl rfl rfl
  have hshape := setting.outcome_expand_typeData (t := .decl shape) (some .object) rfl rfl rfl
  have hobject := setting.outcome_expand_typeData (t := .object) none rfl rfl rfl
  refine .of_plain (.cons expand_showCircle <| .cons expand_drawCircle <| .cons expand_square <|
    .cons hsquare <| .cons hshape <| .cons hobject .nil) ?_ ?_ <;> simp [circleNodes]

/-- What the compilation needs, if there are only squares. -/
def dispatchedNodes : List Node :=
  [.code showCircle.method, .constructed (.decl square), .slot drawShape.method,
    .code drawSquare.method, .typeData (.decl square), .typeData (.decl shape), .typeData .object]

section OnlySquares

variable {x : Sealing} {g : NodeGraph} (hx : x.OfObjects program g)
  (hsquares : ∀ c, g.isMarked (.constructed c) = true → c = .decl square)

include hx hsquares

/-- If there are only squares, the compilation needs what is listed. -/
theorem selfContained_dispatched : (setting.reseal x).SelfContained dispatchedNodes := by
  have hobject := expand_square
  rw [← setting.expand_reseal_constructed x] at hobject
  have hdraw : outcome ((setting.reseal x).expand (.code drawSquare.method)) = .ok {} :=
    (setting.reseal x).outcome_expand_code_singleton rfl rfl body?_drawSquare rfl
  have hsquare := (setting.reseal x).outcome_expand_typeData (t := .decl square)
    (some (.decl shape)) rfl rfl rfl
  have hshape := (setting.reseal x).outcome_expand_typeData (t := .decl shape) (some .object)
    rfl rfl rfl
  have hbase := (setting.reseal x).outcome_expand_typeData (t := .object) none rfl rfl rfl
  refine .of_plain (.cons (expand_showCircle_reseal hx hsquares) <| .cons hobject <| .cons rfl <|
    .cons hdraw <| .cons hsquare <| .cons hshape <| .cons hbase .nil) ?_ ?_ <;>
    simp [dispatchedNodes]

/-- If there are only squares, the compilation marks how squares are drawn. -/
theorem exists_marking_dispatched : ∃ fuel g',
    outcome ((setting.reseal x).analyze fuel circleRoots none) = .ok (some g') ∧
      g'.isMarked (.code drawSquare.method) = true ∧
      ∀ m, g'.isMarked (.code m) = true → m = showCircle.method ∨ m = drawSquare.method := by
  obtain ⟨fuel, g', hg, hroots, hnodes⟩ :=
    (selfContained_dispatched hx hsquares).exists_analyze circleRoots
      (.cons ((setting.reseal x).rootNodes_method rfl rfl) (.cons rfl .nil))
      (by simp [dispatchedNodes])
  have hfixed := Setting.fixedPoint_of_analyze hg
  have hslot : g'.isMarked (.slot drawShape.method) = true := hfixed.edge (hroots _ (by simp))
    (expand_showCircle_reseal hx hsquares) _ (List.mem_singleton_self _)
  have hobject := expand_square
  rw [← setting.expand_reseal_constructed x] at hobject
  have hdrawn : g'.isMarked (.code drawSquare.method) = true :=
    hfixed.conditional (hroots _ (by simp)) hobject _ (List.mem_singleton_self _) hslot
  refine ⟨fuel, g', hg, hdrawn, fun m hm => ?_⟩
  simpa [dispatchedNodes] using hnodes _ hm

end OnlySquares

/-- A compilation can reach a method that its scan missed: how squares are drawn. -/
theorem exists_compile_scannerMismatch : ∃ scanFuel scan fuel,
    outcome (circleCompilation.scan scanFuel) = .ok (some scan) ∧
      circleCompilation.program.WellFormed ∧ circleCompilation.program.HasClassBases ∧
      outcome (circleCompilation.compile fuel scan) =
        .error (.scannerMismatch drawSquare.method.displayName) := by
  obtain ⟨scanFuel, g, hg, hroots, hnodes⟩ := selfContained_circle.exists_analyze circleRoots
    (.cons (setting.rootNodes_method rfl rfl) (.cons rfl .nil)) (by simp [circleNodes])
  have hsquares : ∀ c, g.isMarked (.constructed c) = true → c = .decl square := by
    intro c hc
    simpa [circleNodes] using hnodes _ hc
  have hmissed : g.isMarked (.code drawSquare.method) = false := by
    rw [Bool.eq_false_iff]
    intro hmarked
    simpa [circleNodes, drawSquare, drawCircle, showCircle, MethodDecl.ofName] using
      hnodes _ hmarked
  obtain ⟨fuel, g', hmarking, hreached, hcodes⟩ :=
    exists_marking_dispatched (Scan.ofObjects_sealing ⟨g, circleRoots⟩ program) hsquares
  refine ⟨scanFuel, ⟨g, circleRoots⟩, fuel, Program.scan_of_analyze hg, wellFormed, hasClassBases,
    ?_⟩
  obtain ⟨m, hm⟩ : ∃ m, Compilation.missedBy? g' ⟨g, circleRoots⟩ = some m :=
    Compilation.exists_missedBy? hreached hmissed
  obtain ⟨hcode, hnot⟩ := Compilation.isMarked_of_missedBy? hm
  rcases hcodes m hcode with rfl | rfl
  · rw [hroots _ (by simp)] at hnot
    cases hnot
  · have hverify : circleCompilation.options.verifyScan = true := rfl
    have hmarking' : outcome (circleCompilation.marking fuel ⟨g, circleRoots⟩) = .ok (some g') :=
      hmarking
    rw [Compilation.outcome_compile, hmarking', ok_bind]
    dsimp only
    rw [hverify, if_pos rfl, hm]

end Drawing

end AheadOfTime
