import AheadOfTime.Proofs.Compile.Agreement
import AheadOfTime.Proofs.Method.Name
import AheadOfTime.Proofs.Scan.Grounded
import Mathlib.Data.String.Basic

/-!
# What a compilation puts out

The output lists methods by symbol.  Of the methods with one symbol only the last one is kept, so
that nothing is lost exactly if the marked methods have different symbols.  If types and methods have
plain names, methods with the same symbol are alike: overloads of one type that differ in what they
were declared with, but no longer once the arguments are filled in.
-/

set_option autoImplicit false

namespace AheadOfTime

open Marking

/-- What is sorted by a text is in the order of these texts. -/
theorem pairwise_mergeSort_of_key {α : Type} (key : α → String) (l : List α) :
    (l.mergeSort fun a b => !(key b < key a : Bool)).Pairwise (key · ≤ key ·) := by
  refine (List.pairwise_mergeSort ?_ ?_ l).imp fun h => ?_
  · intro a b c hab hbc
    simp only [Bool.not_eq_true', decide_eq_false_iff_not, not_lt] at hab hbc ⊢
    exact hab.trans hbc
  · intro a b
    simp only [Bool.or_eq_true, Bool.not_eq_true', decide_eq_false_iff_not, not_lt]
    exact le_total (key a) (key b)
  · simpa only [Bool.not_eq_true', decide_eq_false_iff_not, not_lt] using h

/-! ## The latest by symbol -/

section Latest

variable {l : List CompiledMethod}

/-- What is kept was there. -/
theorem mem_of_mem_keepLast {e : CompiledMethod} (h : e ∈ latestBySymbol.keepLast l) : e ∈ l := by
  fun_induction latestBySymbol.keepLast l with
  | case1 => exact h
  | case2 a => exact h
  | case3 a b rest _ ih => exact List.mem_cons_of_mem _ (ih h)
  | case4 a b rest _ ih =>
    rcases List.mem_cons.1 h with rfl | h
    · exact List.mem_cons_self
    · exact List.mem_cons_of_mem _ (ih h)

/-- Something is kept for every symbol. -/
theorem exists_mem_keepLast {e : CompiledMethod} (h : e ∈ l) :
    ∃ e' ∈ latestBySymbol.keepLast l, e'.symbol = e.symbol := by
  fun_induction latestBySymbol.keepLast l generalizing e with
  | case1 => cases h
  | case2 a => exact ⟨e, h, rfl⟩
  | case3 a b rest hab ih =>
    rcases List.mem_cons.1 h with rfl | h
    · obtain ⟨e', he', hsymbol⟩ := ih List.mem_cons_self
      exact ⟨e', he', hsymbol.trans hab.symm⟩
    · exact ih h
  | case4 a b rest _ ih =>
    rcases List.mem_cons.1 h with rfl | h
    · exact ⟨e, List.mem_cons_self, rfl⟩
    · obtain ⟨e', he', hsymbol⟩ := ih h
      exact ⟨e', List.mem_cons_of_mem _ he', hsymbol⟩

/-- Of entries in the order of their symbols, one for each symbol is kept, in this order. -/
theorem pairwise_keepLast (h : l.Pairwise (·.symbol ≤ ·.symbol)) :
    (latestBySymbol.keepLast l).Pairwise (·.symbol < ·.symbol) := by
  fun_induction latestBySymbol.keepLast l with
  | case1 => exact .nil
  | case2 a => exact List.pairwise_singleton _ a
  | case3 a b rest _ ih => exact ih h.of_cons
  | case4 a b rest hab ih =>
    obtain ⟨hfirst, hrest⟩ := List.pairwise_cons.1 h
    have hlt : a.symbol < b.symbol := lt_of_le_of_ne (hfirst b List.mem_cons_self) hab
    refine List.pairwise_cons.2 ⟨fun e he => ?_, ih hrest⟩
    rcases List.mem_cons.1 (mem_of_mem_keepLast he) with rfl | he
    · exact hlt
    · exact lt_of_lt_of_le hlt ((List.pairwise_cons.1 hrest).1 e he)

/-- The latest entries by symbol are among the entries. -/
theorem mem_of_mem_latestBySymbol {e : CompiledMethod} (h : e ∈ latestBySymbol l) : e ∈ l :=
  List.mem_mergeSort.1 (mem_of_mem_keepLast h)

/-- There is a latest entry for every symbol. -/
theorem exists_mem_latestBySymbol {e : CompiledMethod} (h : e ∈ l) :
    ∃ e' ∈ latestBySymbol l, e'.symbol = e.symbol :=
  exists_mem_keepLast (List.mem_mergeSort.2 h)

/-- The latest entries by symbol are in strict order of their symbols. -/
theorem pairwise_latestBySymbol : (latestBySymbol l).Pairwise (·.symbol < ·.symbol) :=
  pairwise_keepLast (pairwise_mergeSort_of_key CompiledMethod.symbol l)

end Latest

/-! ## Names -/

namespace Program

/-- No two methods that are declared on the same type have the same name and the same declared
signature. -/
def OverloadsDiffer (P : Program) : Prop :=
  ∀ r ∈ P.types.toList, ∀ a ∈ r.methods, ∀ b ∈ r.methods, a.name = b.name →
    a.signature = b.signature → a = b

/-- The names of types and methods do not look like names of instantiations. -/
structure PlainNames (P : Program) : Prop where
  types : Ty.NamesApart Method.around P.HasDecl
  nonempty : ∀ d, P.HasDecl d → d.fullName ≠ ""
  methods : ∀ r ∈ P.types.toList, ∀ m ∈ r.methods, m.name.toList.getLast? ≠ some '>'

variable {P : Program} {m m' : Method}

/-- A method of the program is declared in the record of its owner. -/
theorem HasMethod.exists_record (hm : P.HasMethod m) :
    ∃ d, m.owner.decl? = some d ∧ P.record d ∈ P.types.toList ∧ m.decl ∈ (P.record d).methods := by
  obtain ⟨d, hd, hdecl⟩ := hm.declared
  rcases record_mem_or_eq d with hr | hr
  · exact ⟨d, hd, hr, hdecl⟩
  · rw [hr] at hdecl
    cases hdecl

/-- In a program with plain names, the names of methods can be read back. -/
theorem HasMethod.readable (hP : P.Grounded) (hnames : P.PlainNames) (hm : P.HasMethod m) :
    m.Readable P.HasDecl := by
  obtain ⟨hresult, hparameters⟩ := hP.signature hm
  obtain ⟨d, -, hr, hdecl⟩ := hm.exists_record
  exact ⟨hm.owner, hm.args, hparameters, hresult, hnames.methods _ hr m.decl hdecl⟩

/-- Methods that are alike, and were declared alike, are the same. -/
theorem OverloadsDiffer.eq_of_alike (hP : P.OverloadsDiffer) (hm : P.HasMethod m)
    (hm' : P.HasMethod m') (h : m.Alike m') (hsignature : m.decl.signature = m'.decl.signature) :
    m = m' := by
  obtain ⟨d, hd, hr, hdecl⟩ := hm.exists_record
  obtain ⟨d', hd', -, hdecl'⟩ := hm'.exists_record
  rw [h.owner, hd', Option.some.injEq] at hd
  subst hd
  have hdecls := hP _ hr m.decl hdecl m'.decl hdecl' h.name hsignature
  obtain ⟨owner, -, args, -, -⟩ := h
  cases m
  cases m'
  simp_all

end Program

/-! ## The output -/

/-- Every method whose code is marked has exactly one entry. -/
def Compiled.IsComplete (r : Compiled) : Prop :=
  ∀ m, r.graph.isMarked (.code m) = true → ∃! e, e ∈ r.methods ∧ e.method = m

namespace Compilation

variable (C : Compilation)

/-- The methods whose code is marked. -/
def codes (g : NodeGraph) : List Method :=
  g.nodes.toList.filterMap fun
    | .code m => some m
    | _ => none

/-- The methods whose code is listed are those whose code is marked. -/
theorem mem_codes {g : NodeGraph} {m : Method} : m ∈ codes g ↔ g.isMarked (.code m) = true := by
  rw [codes, List.mem_filterMap, Graph.isMarked, Roster.contains_iff_mem]
  constructor
  · rintro ⟨n, hn, hm⟩
    cases n with
    | code m' =>
      cases hm
      exact hn
    | _ => cases hm
  · intro h
    exact ⟨_, h, rfl⟩

/-- An entry is about its method, and says whether code could be made. -/
theorem value_generate (s : Sealing) (m : Method) :
    ∃ code, (C.generate s m).value.1 =
      ⟨m, m.symbol C.lead, code, (C.generate s m).value.2.isSome⟩ := by
  unfold generate
  dsimp only
  split
  · exact ⟨.trap, rfl⟩
  · rw [Recorded.value_bind]
    split
    · exact ⟨_, rfl⟩
    · exact ⟨.trap, rfl⟩

variable {C} {fuel : Nat} {scan : Scan} {r : Compiled}

/-- If making the code succeeds, the output has the latest entries of the marked code. -/
theorem assemble_eq_ok {g : NodeGraph} (h : outcome (C.assemble scan g) = .ok (some r)) :
    r.graph = g ∧ r.methods = latestBySymbol
      ((codes g).map fun m => (C.generate (scan.sealing C.program).value m).value.1) := by
  unfold assemble at h
  simp only [outcome_bind, outcome_mapM, outcome_liftM] at h
  rw [mapM_ok fun _ _ => rfl, ok_bind, mapM_ok fun _ _ => rfl, ok_bind] at h
  split at h
  · cases h
  · cases h
    refine ⟨rfl, ?_⟩
    rw [List.map_map]
    rfl

/-- A compilation that succeeds has put its result together from a marking. -/
theorem exists_assemble (h : outcome (C.compile fuel scan) = .ok (some r)) :
    ∃ g, outcome (C.marking fuel scan) = .ok (some g) ∧
      outcome (C.assemble scan g) = .ok (some r) := by
  rw [outcome_compile] at h
  obtain ⟨g?, hg, h⟩ := bind_eq_ok.1 h
  cases g? with
  | none => cases h
  | some g =>
    dsimp only at h
    split at h
    · cases h
    · exact ⟨g, hg, h⟩

/-- If a compilation succeeds, its output has the latest entries of the code that it has marked. -/
theorem compile_eq_ok (h : outcome (C.compile fuel scan) = .ok (some r)) :
    outcome (C.marking fuel scan) = .ok (some r.graph) ∧ r.methods = latestBySymbol
      ((codes r.graph).map fun m => (C.generate (scan.sealing C.program).value m).value.1) := by
  obtain ⟨g, hg, hassemble⟩ := exists_assemble h
  obtain ⟨rfl, hmethods⟩ := assemble_eq_ok hassemble
  exact ⟨hg, hmethods⟩

/-- If the scan marked all that is needed, and code can be made for it, a compilation succeeds. -/
theorem exists_compile {g : NodeGraph} (hmarking : outcome (C.marking fuel scan) = .ok (some g))
    (hscanned : ∀ m, g.isMarked (.code m) = true → scan.graph.isMarked (.code m) = true)
    (hmade : ∀ m, g.isMarked (.code m) = true →
      (C.generate (scan.sealing C.program).value m).value.2 = none) :
    ∃ r, outcome (C.compile fuel scan) = .ok (some r) ∧ r.graph = g := by
  rw [outcome_compile, hmarking, ok_bind]
  dsimp only
  split
  · next m hm =>
    split at hm
    · obtain ⟨hmarked, hmissed⟩ := isMarked_of_missedBy? hm
      rw [hscanned m hmarked] at hmissed
      cases hmissed
    · cases hm
  · unfold assemble
    simp only [outcome_bind, outcome_mapM, outcome_liftM]
    rw [mapM_ok fun _ _ => rfl, ok_bind, mapM_ok fun _ _ => rfl, ok_bind]
    split
    · next f hf =>
      obtain ⟨x, hx, hfailed⟩ := List.mem_filterMap.1
        (List.mem_mergeSort.1 (List.mem_of_find?_eq_some hf))
      obtain ⟨m, hm, rfl⟩ := List.mem_map.1 hx
      rw [hmade m (mem_codes.1 hm)] at hfailed
      cases hfailed
    · exact ⟨_, rfl, rfl⟩

section Codes

variable {p : Method → Prop} (hcancelled : C.cancelled = none)
  (hcodes : ∀ x, ∃ fuel g, outcome ((C.scanSetting.reseal x).analyze fuel C.roots none) =
    .ok (some g) ∧ ∀ m, g.isMarked (.code m) = true ↔ p m)
include hcancelled hcodes

/-- If the code that is needed is the same whatever sealing is concluded from, then the scan and the
marking of the compilation agree on it. -/
theorem exists_marking_of_codes : ∃ scanFuel scan fuel g,
    outcome (C.scan scanFuel) = .ok (some scan) ∧ scan.roots = C.roots ∧
      outcome (C.marking fuel scan) = .ok (some g) ∧
      (∀ m, scan.graph.isMarked (.code m) = true ↔ p m) ∧
      ∀ m, g.isMarked (.code m) = true ↔ p m := by
  obtain ⟨scanFuel, g, hg, hscanned⟩ := hcodes .declared
  let scan : Scan := ⟨g, C.roots⟩
  obtain ⟨fuel, g', hg', hmarked⟩ := hcodes (scan.sealing C.program).value
  refine ⟨scanFuel, scan, fuel, g', ?_, rfl, ?_, hscanned, hmarked⟩
  · rw [Compilation.scan, hcancelled]
    exact Program.scan_of_analyze hg
  · rw [marking, hcancelled]
    exact hg'

/-- If code can be made for all of it too, then the compilation succeeds. -/
theorem exists_compile_of_codes (hmade : ∀ s m, p m → (C.generate s m).value.2 = none) :
    ∃ scanFuel scan fuel r, outcome (C.scan scanFuel) = .ok (some scan) ∧ scan.roots = C.roots ∧
      outcome (C.compile fuel scan) = .ok (some r) ∧
      ∀ m, r.graph.isMarked (.code m) = true ↔ p m := by
  obtain ⟨scanFuel, scan, fuel, g, hscan, hroots, hmarking, hscanned, hmarked⟩ :=
    exists_marking_of_codes hcancelled hcodes
  obtain ⟨r, hr, rfl⟩ := exists_compile hmarking
    (fun m hm => (hscanned m).2 ((hmarked m).1 hm)) fun m hm => hmade _ m ((hmarked m).1 hm)
  exact ⟨scanFuel, scan, fuel, r, hscan, hroots, hr, hmarked⟩

end Codes

/-! ### Entries and marked methods -/

section Entries

variable (h : outcome (C.compile fuel scan) = .ok (some r))
include h

/-- The entries of an output are in strict order of their symbols. -/
theorem pairwise_methods : r.methods.Pairwise (·.symbol < ·.symbol) := by
  rw [(compile_eq_ok h).2]
  exact pairwise_latestBySymbol

/-- There is one entry for a symbol only. -/
theorem eq_of_symbol_eq {e e' : CompiledMethod} (he : e ∈ r.methods) (he' : e' ∈ r.methods)
    (hsymbol : e.symbol = e'.symbol) : e = e' := by
  have hnodup : (r.methods.map CompiledMethod.symbol).Nodup :=
    List.pairwise_map.2 ((pairwise_methods h).imp ne_of_lt)
  exact List.inj_on_of_nodup_map hnodup he he' hsymbol

/-- An entry is for marked code, and has the symbol of its method. -/
theorem isMarked_of_mem_methods {e : CompiledMethod} (he : e ∈ r.methods) :
    r.graph.isMarked (.code e.method) = true ∧ e.symbol = e.method.symbol C.lead := by
  rw [(compile_eq_ok h).2] at he
  obtain ⟨m, hm, rfl⟩ := List.mem_map.1 (mem_of_mem_latestBySymbol he)
  obtain ⟨code, hcode⟩ := C.value_generate (scan.sealing C.program).value m
  rw [hcode]
  exact ⟨mem_codes.1 hm, rfl⟩

/-- There is an entry under the symbol of every marked method, though it may be about another one. -/
theorem exists_mem_methods {m : Method} (hm : r.graph.isMarked (.code m) = true) :
    ∃ e ∈ r.methods, e.symbol = m.symbol C.lead := by
  rw [(compile_eq_ok h).2]
  obtain ⟨code, hcode⟩ := C.value_generate (scan.sealing C.program).value m
  obtain ⟨e, he, hsymbol⟩ := exists_mem_latestBySymbol (List.mem_map_of_mem (mem_codes.2 hm))
  refine ⟨e, he, hsymbol.trans ?_⟩
  rw [hcode]

/-- Nothing is lost exactly if the full names of marked methods differ. -/
theorem isComplete_iff_fullChars_inj :
    r.IsComplete ↔ ∀ m m', r.graph.isMarked (.code m) = true →
      r.graph.isMarked (.code m') = true → m.fullChars = m'.fullChars → m = m' := by
  constructor
  · intro hentries m m' hm hm' hname
    obtain ⟨e, ⟨he, rfl⟩, -⟩ := hentries m hm
    obtain ⟨e', ⟨he', rfl⟩, -⟩ := hentries m' hm'
    have hsymbol : e.symbol = e'.symbol := by
      rw [(isMarked_of_mem_methods h he).2, (isMarked_of_mem_methods h he').2]
      exact Method.symbol_eq_iff.2 hname
    rw [eq_of_symbol_eq h he he' hsymbol]
  · intro hinj m hm
    obtain ⟨e, he, hsymbol⟩ := exists_mem_methods h hm
    obtain ⟨hmarked, hown⟩ := isMarked_of_mem_methods h he
    have hmethod : e.method = m :=
      hinj _ _ hmarked hm (Method.symbol_eq_iff.1 (hown.symm.trans hsymbol))
    refine ⟨e, ⟨he, hmethod⟩, fun e' ⟨he', hmethod'⟩ => eq_of_symbol_eq h he' he ?_⟩
    rw [(isMarked_of_mem_methods h he').2, hmethod', ← hmethod, ← hown]

/-- The marked code is that of methods of the program. -/
theorem hasMethod_of_isMarked (hP : C.program.Grounded)
    (hroots : ∀ root ∈ scan.roots, C.program.HasRoot root.kind) {m : Method}
    (hm : r.graph.isMarked (.code m) = true) : C.program.HasMethod m := by
  have hfixed := Setting.fixedPoint_of_analyze (compile_eq_ok h).1
  exact Setting.hasNode_of_isMarked (n := .code m) hP hroots hfixed hm

end Entries

/-- The output of a compilation is sorted by symbol and is about marked methods.  Every marked
method has exactly one entry exactly if the full names of marked methods differ.  In a program with
plain names, where no two methods of a type were declared alike, that is if the marked methods that
are alike once the arguments are filled in have the same declared signature. -/
theorem compile_complete_iff (h : outcome (C.compile fuel scan) = .ok (some r)) :
    r.methods.Pairwise (·.symbol < ·.symbol) ∧
      (∀ e ∈ r.methods,
        r.graph.isMarked (.code e.method) = true ∧ e.symbol = e.method.symbol C.lead) ∧
      (r.IsComplete ↔ ∀ m m', r.graph.isMarked (.code m) = true →
        r.graph.isMarked (.code m') = true → m.fullChars = m'.fullChars → m = m') ∧
      (C.program.Grounded → C.program.PlainNames → C.program.OverloadsDiffer →
        (∀ root ∈ scan.roots, C.program.HasRoot root.kind) →
        (r.IsComplete ↔ ∀ m m', r.graph.isMarked (.code m) = true →
          r.graph.isMarked (.code m') = true → m.Alike m' →
            m.decl.signature = m'.decl.signature)) := by
  refine ⟨pairwise_methods h, fun e he => isMarked_of_mem_methods h he,
    isComplete_iff_fullChars_inj h, fun hP hnames hoverloads hroots => ?_⟩
  rw [isComplete_iff_fullChars_inj h]
  have hhas : ∀ {m}, r.graph.isMarked (.code m) = true → C.program.HasMethod m :=
    fun hm => hasMethod_of_isMarked h hP hroots hm
  constructor
  · intro hinj m m' hm hm' halike
    rw [hinj m m' hm hm' halike.fullChars_eq]
  · intro hdeclared m m' hm hm' hname
    have halike := Method.alike_of_fullChars_eq hnames.types hnames.nonempty
      ((hhas hm).readable hP hnames) ((hhas hm').readable hP hnames) hname
    exact hoverloads.eq_of_alike (hhas hm) (hhas hm') halike (hdeclared m m' hm hm' halike)

end Compilation

/-! ### Boxes

Values of the right type can be put into a box, and numbers into every box. -/

namespace Boxes

def box : TypeDecl := { id := 19, space := "App", name := "Box", arity := 1 }

def putOf (id : Nat) (t : Ty) : MethodDecl :=
  { id, owner := box, name := "Put", flags := { static := true },
    signature := { result := .ofWellKnown .void, parameters := [t] } }

def put : MethodDecl := putOf 0 (.param .type 0)

def putNumber : MethodDecl := putOf 1 (.ofWellKnown .int32)

def types : List TypeRecord :=
  [.ofMethods box (some .object) [put, putNumber]]

def program : Program :=
  Program.withTypes types
    |>.setBody put.method [.ret]
    |>.setBody putNumber.method [.ret]

/-- A method of the boxes for values of a well-known type. -/
def onBox (d : MethodDecl) (w : WellKnown) : Method :=
  ⟨d, .app (.decl box) (.ofWellKnown w), []⟩

/-- Both ways to put something into such a box are kept. -/
def roots (w : WellKnown) : List Root :=
  [{ kind := .method (onBox put w), reason := "entry point" },
    { kind := .method (onBox putNumber w), reason := "entry point" }]

def compilation (w : WellKnown) : Compilation := { program, roots := roots w }

/-- Whatever is done with a box, nothing happens. -/
theorem body?_eq_some {m : Method} {body : Body} (h : program.body? m = some body) :
    body = [.ret] := by
  simp only [program, Program.body?_setBody, Program.body?_withTypes] at h
  split at h
  · cases h
    rfl
  · split at h
    · cases h
      rfl
    · cases h

/-- Putting a number into a box is a method of its own. -/
theorem putNumber_ne_put : putNumber ≠ put := by
  simp [putNumber, put, putOf]

/-- Both ways to put something into a box have a body. -/
theorem body?_onBox {d : MethodDecl} (hd : d ∈ [put, putNumber]) (w : WellKnown) :
    program.body? (onBox d w) = some [.ret] := by
  have htypical : (onBox d w).typical = d.method := rfl
  simp only [List.mem_cons, List.not_mem_nil, or_false] at hd
  rcases hd with rfl | rfl <;> simp [program, htypical, putNumber_ne_put]

/-- The well-known types are declared. -/
theorem hasDecl_wellKnown (w : WellKnown) : program.HasDecl w.decl :=
  Program.hasDecl_wellKnown_of_withTypes types rfl w

/-- What the program of boxes refers to is declared. -/
theorem grounded : program.Grounded := by
  refine Program.grounded_of_withTypes types rfl (fun r hr => ?_) ?_
  · rw [List.mem_singleton.1 hr]
    constructor
    · intro b hb
      cases hb
      exact hasDecl_wellKnown .object
    · intro i hi
      cases hi
    · intro m hm
      simp only [TypeRecord.ofMethods, List.mem_cons, List.not_mem_nil, or_false] at hm
      rcases hm with rfl | rfl
      · exact ⟨hasDecl_wellKnown .void, List.forall_mem_singleton.2 trivial⟩
      · exact ⟨hasDecl_wellKnown .void, List.forall_mem_singleton.2 (hasDecl_wellKnown .int32)⟩
    · intro o ho
      cases ho
  · intro m body h i hi
    rw [body?_eq_some h, List.mem_singleton] at hi
    rw [hi]
    trivial

/-- The names in the program of boxes are plain. -/
theorem plainNames : program.PlainNames := by
  have hplain : ∀ r ∈ program.types.toList,
      (r.decl.fullName.toList.all fun c => c ∉ Ty.marks ∧ c ∉ Method.around) = true ∧
        r.decl.fullName ≠ Ty.canonName ∧ r.decl.fullName ≠ "" ∧
        ∀ m ∈ r.methods, m.name.toList.getLast? ≠ some '>' := by decide +kernel
  have hnodup : (program.types.toList.map (·.decl.fullName)).Nodup := by decide +kernel
  refine ⟨⟨?_, ?_, ?_, by simp [Method.around]⟩, ?_, fun r hr => (hplain r hr).2.2.2⟩
  · rintro _ ⟨r, hr, rfl⟩ c hc
    exact of_decide_eq_true (List.all_eq_true.1 (hplain r hr).1 c hc)
  · rintro _ ⟨r, hr, rfl⟩
    exact (hplain r hr).2.1
  · rintro _ _ ⟨r, hr, rfl⟩ ⟨r', hr', rfl⟩ hname
    rw [List.inj_on_of_nodup_map hnodup hr hr' hname]
  · rintro _ ⟨r, hr, rfl⟩
    exact (hplain r hr).2.2.1

/-- The two ways to put something into a box differ in their signatures. -/
theorem overloadsDiffer : program.OverloadsDiffer := by
  intro r hr a ha b hb _ hsignature
  rcases Program.mem_types_withTypes.1 hr with hr | hr
  · obtain ⟨w, -, rfl⟩ := List.mem_map.1 hr
    cases ha
  · rw [List.mem_singleton.1 hr] at ha hb
    simp only [TypeRecord.ofMethods, List.mem_cons, List.not_mem_nil, or_false] at ha hb
    rcases ha with rfl | rfl <;> rcases hb with rfl | rfl
    · rfl
    · simp [put, putNumber, putOf, Ty.ofWellKnown] at hsignature
    · simp [put, putNumber, putOf, Ty.ofWellKnown] at hsignature
    · rfl

/-- Both ways to put something into a box are methods of the program. -/
theorem hasMethod_onBox {d : MethodDecl} (hd : d ∈ [put, putNumber]) (w : WellKnown) :
    program.HasMethod (onBox d w) := by
  have hbox : program.HasDecl box :=
    ⟨_, Program.mem_types_withTypes.2 (.inr (List.mem_singleton_self _)), rfl⟩
  exact ⟨⟨box, rfl, hd⟩, ⟨rfl, hbox, hasDecl_wellKnown w⟩, fun a ha => by cases ha⟩

/-- The roots are about what the program has. -/
theorem hasRoot_roots (w : WellKnown) : ∀ root ∈ roots w, program.HasRoot root.kind := by
  intro root hroot
  simp only [roots, List.mem_cons, List.not_mem_nil, or_false] at hroot
  rcases hroot with rfl | rfl
  · exact hasMethod_onBox (d := put) (by simp) w
  · exact hasMethod_onBox (d := putNumber) (by simp) w

/-! #### Compiling both -/

/-- What is needed to put something into a box, if its code is not shared. -/
def nodes (w : WellKnown) : List Node :=
  [.code (onBox put w), .code (onBox putNumber w)]

variable {w : WellKnown}

abbrev setting (x : Sealing) : Setting := { program, sealing := x }

/-- Putting something into a box needs what is listed. -/
theorem selfContained_nodes (x : Sealing) : (setting x).SelfContained (nodes w) := by
  have hput := (setting x).outcome_expand_code_singleton (m := onBox put w) rfl rfl
    (body?_onBox (by simp) w) rfl
  have hputNumber := (setting x).outcome_expand_code_singleton (m := onBox putNumber w) rfl rfl
    (body?_onBox (by simp) w) rfl
  refine .of_plain (.cons hput <| .cons hputNumber .nil) ?_ ?_ <;> simp [nodes]

/-- Code can be made for both ways to put something into a box. -/
theorem generate_onBox (s : Sealing) {d : MethodDecl} (hd : d ∈ [put, putNumber]) :
    ((compilation w).generate s (onBox d w)).value.2 = none := by
  have hbody : (compilation w).program.body? (onBox d w) = some [.ret] := body?_onBox hd w
  rw [Compilation.generate, hbody]
  rfl

section Unshared

variable (hw : ∀ d, (onBox d w).canonical = onBox d w)
include hw

/-- A marking succeeds, and marks both ways to put something into a box. -/
theorem exists_marking (x : Sealing) :
    ∃ fuel g, outcome ((setting x).analyze fuel (roots w) none) = .ok (some g) ∧
      ∀ m, g.isMarked (.code m) = true ↔ m = onBox put w ∨ m = onBox putNumber w := by
  obtain ⟨fuel, g, hg, hroots, hnodes⟩ := (selfContained_nodes (w := w) x).exists_analyze
    (roots w) (.cons ((setting x).rootNodes_method rfl (hw put)) <|
      .cons ((setting x).rootNodes_method rfl (hw putNumber)) .nil) (by simp [nodes])
  refine ⟨fuel, g, hg, fun m => ⟨fun hm => by simpa [nodes] using hnodes _ hm, ?_⟩⟩
  rintro (rfl | rfl) <;> exact hroots _ (by simp)

/-- A compilation succeeds, and marks both ways to put something into a box. -/
theorem exists_compile : ∃ scanFuel scan fuel r,
    outcome ((compilation w).scan scanFuel) = .ok (some scan) ∧ scan.roots = roots w ∧
      outcome ((compilation w).compile fuel scan) = .ok (some r) ∧
      ∀ m, r.graph.isMarked (.code m) = true ↔ m = onBox put w ∨ m = onBox putNumber w := by
  refine Compilation.exists_compile_of_codes rfl (exists_marking hw) ?_
  rintro s m (rfl | rfl) <;> exact generate_onBox s (by simp)

end Unshared

/-- Values and numbers are put into a box for truth values in different ways. -/
theorem not_alike_boolean : ¬ (onBox put .boolean).Alike (onBox putNumber .boolean) := by
  intro h
  have hparameters : [Ty.ofWellKnown .boolean] = [Ty.ofWellKnown .int32] := h.parameters
  simp [Ty.ofWellKnown, WellKnown.decl, WellKnown.name] at hparameters

/-- Both ways to put something into a box for truth values are put out. -/
theorem compile_complete_iff_boolean : ∃ scanFuel scan fuel r,
    outcome ((compilation .boolean).scan scanFuel) = .ok (some scan) ∧
      outcome ((compilation .boolean).compile fuel scan) = .ok (some r) ∧
      program.Grounded ∧ program.PlainNames ∧ program.OverloadsDiffer ∧
      (∀ root ∈ scan.roots, program.HasRoot root.kind) ∧
      r.graph.isMarked (.code (onBox put .boolean)) = true ∧
      r.graph.isMarked (.code (onBox putNumber .boolean)) = true ∧
      r.methods.Pairwise (·.symbol < ·.symbol) ∧ r.IsComplete := by
  obtain ⟨scanFuel, scan, fuel, r, hscan, hroots, hr, hmarked⟩ :=
    exists_compile (w := .boolean) fun _ => rfl
  have hhas : ∀ root ∈ scan.roots, program.HasRoot root.kind := hroots ▸ hasRoot_roots .boolean
  obtain ⟨hsorted, -, -, hcomplete⟩ := Compilation.compile_complete_iff hr
  refine ⟨scanFuel, scan, fuel, r, hscan, hr, grounded, plainNames, overloadsDiffer, hhas,
    (hmarked _).2 (.inl rfl), (hmarked _).2 (.inr rfl), hsorted,
    (hcomplete grounded plainNames overloadsDiffer hhas).2 ?_⟩
  intro m m' hm hm' halike
  rcases (hmarked m).1 hm with rfl | rfl <;> rcases (hmarked m').1 hm' with rfl | rfl
  · rfl
  · exact absurd halike not_alike_boolean
  · exact absurd halike.symm not_alike_boolean
  · rfl

/-- Into a box for numbers they are put in ways that are alike, so that only one of them is put
out. -/
theorem exists_compile_losing_method : ∃ scanFuel scan fuel r,
    outcome ((compilation .int32).scan scanFuel) = .ok (some scan) ∧
      outcome ((compilation .int32).compile fuel scan) = .ok (some r) ∧
      program.Grounded ∧ program.PlainNames ∧ program.OverloadsDiffer ∧
      (∀ root ∈ scan.roots, program.HasRoot root.kind) ∧
      ¬ r.IsComplete := by
  obtain ⟨scanFuel, scan, fuel, r, hscan, hroots, hr, hmarked⟩ :=
    exists_compile (w := .int32) fun _ => rfl
  have hhas : ∀ root ∈ scan.roots, program.HasRoot root.kind := hroots ▸ hasRoot_roots .int32
  refine ⟨scanFuel, scan, fuel, r, hscan, hr, grounded, plainNames, overloadsDiffer, hhas, ?_⟩
  rw [Compilation.isComplete_iff_fullChars_inj hr]
  intro hinj
  have halike : (onBox put .int32).Alike (onBox putNumber .int32) := ⟨rfl, rfl, rfl, rfl, rfl⟩
  have hsame := hinj _ _ ((hmarked _).2 (.inl rfl)) ((hmarked _).2 (.inr rfl)) halike.fullChars_eq
  exact putNumber_ne_put (congrArg Method.decl hsame).symm

end Boxes

end AheadOfTime
