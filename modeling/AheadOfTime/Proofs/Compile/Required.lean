import AheadOfTime.Proofs.Compile.Output
import AheadOfTime.Proofs.Scan.Monotone

/-!
# Required code

A root that must not fail keeps a method: a method root, or a method that is reflected on, if it has
code.  One would want that a compilation has code for all of these, or fails.  It fails exactly if
code cannot be made for what a required method root keeps; a method that is only kept because it is
reflected on becomes a stub all the same.
-/

set_option autoImplicit false

namespace AheadOfTime

open Marking

/-- The method whose code a root keeps.  A method that is reflected on is kept with its code if that
can run as it is. -/
def RootKind.code? : RootKind → Option Method
  | .method m => some m
  | .reflectedMethod m => if m.isOpen || m.isAbstract then none else some m
  | _ => none

namespace Setting

variable {S : Setting} {roots : List Root}

/-- The methods that own the code which required roots keep. -/
def requiredCode (S : Setting) (roots : List Root) : List Method :=
  ((roots.filter (·.required)).filterMap (·.kind.code?)).map fun m => (S.codeOwner m).value

/-- Required code is owned by a method that some required root keeps. -/
theorem mem_requiredCode {m : Method} : m ∈ S.requiredCode roots ↔
    ∃ root ∈ roots, root.required = true ∧ ∃ kept, root.kind.code? = some kept ∧
      (S.codeOwner kept).value = m := by
  simp only [requiredCode, List.mem_map, List.mem_filterMap, List.mem_filter]
  constructor
  · rintro ⟨kept, ⟨root, ⟨hroot, hrequired⟩, hkept⟩, rfl⟩
    exact ⟨root, hroot, hrequired, kept, hkept, rfl⟩
  · rintro ⟨root, hroot, hrequired, kept, hkept, rfl⟩
    exact ⟨kept, ⟨root, ⟨hroot, hrequired⟩, hkept⟩, rfl⟩

/-- A root that keeps code has the node of that code, if it has nodes at all. -/
theorem codeNode_mem_rootNodes {kind : RootKind} {kept : Method} {nodes : List Node}
    (hkept : kind.code? = some kept) (hnodes : outcome (S.rootNodes kind) = .ok nodes) :
    (S.codeNode kept).value ∈ nodes := by
  cases kind with
  | method m =>
    cases hkept
    simp only [rootNodes] at hnodes
    split at hnodes
    · cases hnodes
    · cases hnodes
      exact List.mem_singleton_self _
  | reflectedMethod m =>
    simp only [RootKind.code?] at hkept
    split at hkept
    · cases hkept
    · next hruns =>
      cases hkept
      simp only [Bool.or_eq_true, not_or, Bool.not_eq_true] at hruns
      simp only [rootNodes, hruns.1, hruns.2] at hnodes
      cases hnodes
      exact List.mem_cons_of_mem _ (List.mem_singleton_self _)
  | constructed t => cases hkept
  | reflectedType t => cases hkept

/-- What required roots keep is marked by every marking that succeeds. -/
theorem isMarked_requiredCode {fuel : Nat} {cancelled : Option Bool} {g : NodeGraph} {m : Method}
    (h : outcome (S.analyze fuel roots cancelled) = .ok (some g)) (hm : m ∈ S.requiredCode roots) :
    g.isMarked (.code m) = true := by
  obtain ⟨root, hroot, hrequired, kept, hkept, rfl⟩ := mem_requiredCode.1 hm
  have hfixed := fixedPoint_of_analyze h
  rw [outcome_analyze] at h
  obtain ⟨start, hstart, -⟩ := bind_eq_ok.1 h
  obtain ⟨nodes, hnodes⟩ := (exists_addRoots_iff _).1 ⟨start, hstart⟩ root hroot hrequired
  exact hfixed.isMarked_codeOwner
    (hfixed.root ⟨root, hroot, nodes, hnodes, codeNode_mem_rootNodes hkept hnodes⟩)

end Setting

namespace Compilation

variable (C : Compilation) (scan : Scan)

/-- The setting in which a compilation marks. -/
def setting : Setting :=
  C.scanSetting.reseal (scan.sealing C.program).value

/-- The entry of a method, and why no code could be made for it, if so. -/
def made (m : Method) : CompiledMethod × Option MethodFailure :=
  (C.generate (scan.sealing C.program).value m).value

/-- The methods of a marking for which no code could be made, by name. -/
def failures (g : NodeGraph) : List MethodFailure :=
  (((codes g).map (C.made scan)).filterMap (·.2)).mergeSort fun a b => !(b.name < a.name : Bool)

/-- The code that a compilation insists on: what required method roots keep. -/
def insisted : List Method :=
  (requiredMethods scan.roots).map fun m => ((C.setting scan).codeOwner m).value

/-- The code that a compilation insists on is owned by the method of some required method root. -/
theorem mem_insisted {m : Method} : m ∈ C.insisted scan ↔
    ∃ root ∈ scan.roots, root.required = true ∧ ∃ kept, root.kind = .method kept ∧
      ((C.setting scan).codeOwner kept).value = m := by
  simp only [insisted, requiredMethods, List.mem_map, List.mem_filterMap]
  constructor
  · rintro ⟨kept, ⟨root, hroot, hkept⟩, rfl⟩
    split at hkept
    · next m hm =>
      split at hkept
      · next hrequired =>
        cases hkept
        exact ⟨root, hroot, hrequired, kept, hm, rfl⟩
      · cases hkept
    · cases hkept
  · rintro ⟨root, hroot, hrequired, kept, hkept, rfl⟩
    exact ⟨kept, ⟨root, hroot, by simp [hkept, hrequired]⟩, rfl⟩

/-- The names of the methods for which no code could be made and on which a compilation does not
insist. -/
def tolerated (g : NodeGraph) : List String :=
  ((C.failures scan g).filter fun f => !(C.insisted scan).contains f.method).map (·.name)

/-- What a compilation insists on is required. -/
theorem insisted_subset : C.insisted scan ⊆ (C.setting scan).requiredCode scan.roots := by
  intro m hm
  obtain ⟨root, hroot, hrequired, kept, hkept, rfl⟩ := (C.mem_insisted scan).1 hm
  exact Setting.mem_requiredCode.2 ⟨root, hroot, hrequired, kept, by simp [hkept, RootKind.code?],
    rfl⟩

variable {C scan} {g : NodeGraph} {m : Method} {f : MethodFailure}

/-- A failure to make code names the method that it is about. -/
theorem method_of_made (h : (C.made scan m).2 = some f) : f.method = m := by
  unfold made generate at h
  dsimp only at h
  split at h
  · cases h
    rfl
  · rw [Recorded.value_bind] at h
    split at h
    · cases h
    · cases h
      rfl

/-- A compilation that has marked everything fails if it insists on a method for which no code could
be made, and else gives what it has. -/
theorem outcome_assemble (g : NodeGraph) : outcome (C.assemble scan g) =
    match (C.failures scan g).find? fun f => (C.insisted scan).contains f.method with
    | some fatal => .error (.compilationFailed fatal.error (C.tolerated scan g))
    | none => .ok (some
        { methods := latestBySymbol (((codes g).map (C.made scan)).map (·.1)),
          failures := C.failures scan g, graph := g, setting := C.setting scan }) := by
  unfold assemble
  simp only [outcome_bind, outcome_mapM, outcome_liftM]
  rw [mapM_ok fun _ _ => rfl, ok_bind, mapM_ok fun _ _ => rfl, ok_bind]
  show outcome
    (match (C.failures scan g).find? fun f => (C.insisted scan).contains f.method with
    | some fatal => throw (.compilationFailed fatal.error (C.tolerated scan g))
    | none => pure (some
        { methods := latestBySymbol (((codes g).map (C.made scan)).map (·.1)),
          failures := C.failures scan g, graph := g, setting := C.setting scan }) :
        Attempt (Option Compiled)) = _
  cases (C.failures scan g).find? fun f => (C.insisted scan).contains f.method with
  | some fatal => rfl
  | none => rfl

/-- The output of a compilation has the setting in which it marks. -/
theorem setting_of_compile {fuel : Nat} {r : Compiled}
    (h : outcome (C.compile fuel scan) = .ok (some r)) : r.setting = C.setting scan := by
  obtain ⟨g, -, hassemble⟩ := exists_assemble h
  rw [outcome_assemble] at hassemble
  split at hassemble
  · cases hassemble
  · cases hassemble
    rfl

/-- The failures of a compilation are those of the marked code. -/
theorem mem_failures {f : MethodFailure} :
    f ∈ C.failures scan g ↔ ∃ m ∈ codes g, (C.made scan m).2 = some f := by
  simp [failures]

/-- The failures of a compilation are in the order of their names. -/
theorem pairwise_failures : (C.failures scan g).Pairwise (·.name ≤ ·.name) :=
  pairwise_mergeSort_of_key MethodFailure.name _

/-- No code could be made for a method. -/
def Fails (C : Compilation) (scan : Scan) (m : Method) : Prop :=
  (C.made scan m).2.isSome = true

instance : DecidablePred (C.Fails scan) := fun _ => inferInstanceAs (Decidable (_ = true))

/-- Failures are named after the methods that failed. -/
theorem perm_tolerated : (C.tolerated scan g).Perm
    (((codes g).filter fun m => C.Fails scan m ∧ m ∉ C.insisted scan).map Method.displayName) := by
  have hsorted := (List.mergeSort_perm (((codes g).map (C.made scan)).filterMap (·.2))
    fun a b => !(b.name < a.name : Bool)).filter fun f => !(C.insisted scan).contains f.method
  refine (hsorted.map (·.name)).trans (.of_eq ?_)
  induction codes g with
  | nil => rfl
  | cons m l ih =>
    rw [List.map_cons, List.filter_cons]
    cases hmade : (C.made scan m).2 with
    | none =>
      rw [List.filterMap_cons_none hmade]
      simpa [Fails, hmade] using ih
    | some f =>
      have hname : f.name = m.displayName := congrArg Method.displayName (method_of_made hmade)
      rw [List.filterMap_cons_some hmade, List.filter_cons, method_of_made hmade]
      by_cases hinsisted : m ∈ C.insisted scan
      · simpa [hinsisted] using ih
      · simpa [Fails, hmade, hinsisted, hname] using ih

/-- An entry of the output is a stub exactly if no code could be made for its method. -/
theorem isStub_iff {fuel : Nat} {r : Compiled} {e : CompiledMethod}
    (h : outcome (C.compile fuel scan) = .ok (some r)) (he : e ∈ r.methods) :
    e.isStub = true ↔ C.Fails scan e.method := by
  rw [(compile_eq_ok h).2] at he
  obtain ⟨m, -, rfl⟩ := List.mem_map.1 (mem_of_mem_latestBySymbol he)
  obtain ⟨code, hcode⟩ := C.value_generate (scan.sealing C.program).value m
  rw [hcode]
  exact Iff.rfl

/-- What one would want of required code: if the compilation succeeds, none of it is a stub, and if
no code could be made for some of it, the compilation fails and names, in order, the methods that
are not required and for which none could be made either. -/
structure HonoursRequired (C : Compilation) (fuel : Nat) (scan : Scan) (g : NodeGraph) : Prop where
  kept : ∀ r, outcome (C.compile fuel scan) = .ok (some r) →
    ∀ m ∈ (C.setting scan).requiredCode scan.roots,
      (∃ e ∈ r.methods, e.symbol = m.symbol C.lead) ∧
        ∀ e ∈ r.methods, e.method = m → e.isStub = false
  fatal : ∀ m ∈ (C.setting scan).requiredCode scan.roots, C.Fails scan m →
    ∃ cause names, outcome (C.compile fuel scan) = .error (.compilationFailed cause names) ∧
      names.Pairwise (· ≤ ·) ∧
      names.Perm (((codes g).filter fun m => C.Fails scan m ∧
        m ∉ (C.setting scan).requiredCode scan.roots).map Method.displayName)

section Assembled

variable {fuel : Nat} (hmarking : outcome (C.marking fuel scan) = .ok (some g))
  (hverified : C.options.verifyScan = true → missedBy? g scan = none)
include hmarking hverified

/-- Once everything is marked as in the scan, compiling is making the code. -/
theorem outcome_compile_of_marking :
    outcome (C.compile fuel scan) = outcome (C.assemble scan g) := by
  rw [outcome_compile, hmarking, ok_bind]
  dsimp only
  split
  · next m hm =>
    split at hm
    · next hverify =>
      rw [hverified hverify] at hm
      cases hm
    · cases hm
  · rfl

/-- If no code could be made for something that a compilation insists on, it fails and names all
other methods for which none could be made. -/
theorem compile_of_insisted (hm : m ∈ codes g) (hfails : C.Fails scan m)
    (hinsisted : m ∈ C.insisted scan) :
    ∃ fatal ∈ C.failures scan g, fatal.method ∈ C.insisted scan ∧
      outcome (C.compile fuel scan) =
        .error (.compilationFailed fatal.error (C.tolerated scan g)) := by
  obtain ⟨f, hf⟩ := Option.isSome_iff_exists.1 hfails
  have hfound : ((C.failures scan g).find? fun f =>
      (C.insisted scan).contains f.method).isSome = true := by
    rw [List.find?_isSome]
    refine ⟨f, mem_failures.2 ⟨m, hm, hf⟩, ?_⟩
    rw [method_of_made hf]
    exact List.contains_iff_mem.2 hinsisted
  obtain ⟨fatal, hfatal⟩ := Option.isSome_iff_exists.1 hfound
  have hmethod := List.find?_some hfatal
  refine ⟨fatal, List.mem_of_find?_eq_some hfatal, List.contains_iff_mem.1 hmethod, ?_⟩
  rw [outcome_compile_of_marking hmarking hverified, outcome_assemble, hfatal]

/-- If code could be made for all that a compilation insists on, it succeeds. -/
theorem exists_compile_of_insisted
    (h : ∀ m ∈ codes g, C.Fails scan m → m ∉ C.insisted scan) :
    ∃ r, outcome (C.compile fuel scan) = .ok (some r) ∧ r.graph = g := by
  have hnone : ((C.failures scan g).find? fun f => (C.insisted scan).contains f.method) = none := by
    rw [List.find?_eq_none]
    intro f hf hinsisted
    obtain ⟨m, hm, hmade⟩ := mem_failures.1 hf
    rw [method_of_made hmade] at hinsisted
    exact h m hm (Option.isSome_iff_exists.2 ⟨f, hmade⟩) (List.contains_iff_mem.1 hinsisted)
  rw [outcome_compile_of_marking hmarking hverified, outcome_assemble, hnone]
  exact ⟨_, rfl, rfl⟩

/-- A compilation that succeeds has code for all that it insists on. -/
theorem not_fails_of_compile {r : Compiled} (h : outcome (C.compile fuel scan) = .ok (some r))
    (hm : m ∈ codes g) (hinsisted : m ∈ C.insisted scan) : ¬ C.Fails scan m := by
  intro hfails
  obtain ⟨fatal, -, -, herror⟩ := compile_of_insisted hmarking hverified hm hfails hinsisted
  rw [herror] at h
  cases h

/-- A compilation that fails names the methods for which no code could be made, except those that it
insists on. -/
theorem names_of_compile {cause : Diagnostic} {names : List String}
    (h : outcome (C.compile fuel scan) = .error (.compilationFailed cause names)) :
    names = C.tolerated scan g := by
  rw [outcome_compile_of_marking hmarking hverified, outcome_assemble] at h
  split at h
  · cases h
    rfl
  · cases h

/-- If a compilation insists on all required code that fails, it honours what is required. -/
theorem honoursRequired_of_insisted
    (h : ∀ m ∈ (C.setting scan).requiredCode scan.roots, C.Fails scan m → m ∈ C.insisted scan) :
    C.HonoursRequired fuel scan g := by
  have hmarked : ∀ m ∈ (C.setting scan).requiredCode scan.roots, m ∈ codes g := fun m hm =>
    mem_codes.2 (Setting.isMarked_requiredCode hmarking hm)
  constructor
  · intro r hr m hm
    have hgraph : r.graph = g := by
      have hsame := (compile_eq_ok hr).1.symm.trans hmarking
      simpa using hsame
    refine ⟨exists_mem_methods hr (hgraph ▸ mem_codes.1 (hmarked m hm)), fun e he hem => ?_⟩
    subst hem
    rw [Bool.eq_false_iff, Ne, isStub_iff hr he]
    intro hfails
    exact not_fails_of_compile hmarking hverified hr (hmarked _ hm) (h _ hm hfails) hfails
  · intro m hm hfails
    obtain ⟨fatal, -, -, herror⟩ :=
      compile_of_insisted hmarking hverified (hmarked m hm) hfails (h m hm hfails)
    refine ⟨fatal.error, _, herror, ?_, ?_⟩
    · exact List.pairwise_map.2 (pairwise_failures.filter _)
    · refine perm_tolerated.trans (.of_eq ?_)
      congr 1
      refine List.filter_congr fun m _ => decide_eq_decide.2 (and_congr_right fun hfails => ?_)
      exact not_congr ⟨fun hm => C.insisted_subset scan hm, fun hm => h m hm hfails⟩

/-- If it does not, it does not fail where it should, or names too many methods. -/
theorem HonoursRequired.insisted (h : C.HonoursRequired fuel scan g)
    (hm : m ∈ (C.setting scan).requiredCode scan.roots) (hfails : C.Fails scan m) :
    m ∈ C.insisted scan := by
  refine Decidable.byContradiction fun hnot => ?_
  obtain ⟨cause, names, herror, -, hperm⟩ := h.fatal m hm hfails
  rw [names_of_compile hmarking hverified herror] at hperm
  -- The named methods are among those that were expected, and equally many.
  have hlength := (hperm.symm.trans perm_tolerated).length_eq
  rw [List.length_map, List.length_map] at hlength
  have hsublist : ((codes g).filter fun m => C.Fails scan m ∧
      m ∉ (C.setting scan).requiredCode scan.roots).Sublist
        ((codes g).filter fun m => C.Fails scan m ∧ m ∉ C.insisted scan) := by
    refine List.monotone_filter_right _ fun m hm => ?_
    obtain ⟨hfails, hother⟩ := of_decide_eq_true hm
    exact decide_eq_true ⟨hfails, fun hinsisted => hother (C.insisted_subset scan hinsisted)⟩
  have hnamed : m ∈ (codes g).filter fun m => C.Fails scan m ∧ m ∉ C.insisted scan :=
    List.mem_filter.2 ⟨mem_codes.2 (Setting.isMarked_requiredCode hmarking hm),
      decide_eq_true ⟨hfails, hnot⟩⟩
  rw [← hsublist.eq_of_length hlength] at hnamed
  exact (of_decide_eq_true (List.mem_filter.1 hnamed).2).2 hm

/-- A compilation honours what is required exactly if every required method for which no code could
be made is kept by a required method root.  So it does if no method is required only because it is
reflected on. -/
theorem honoursRequired_iff :
    (C.HonoursRequired fuel scan g ↔
      ∀ m ∈ (C.setting scan).requiredCode scan.roots, C.Fails scan m →
        ∃ root ∈ scan.roots, root.required = true ∧ ∃ kept, root.kind = .method kept ∧
          ((C.setting scan).codeOwner kept).value = m) ∧
      ((∀ root ∈ scan.roots, root.required = true → ∀ m, root.kind ≠ .reflectedMethod m) →
        C.HonoursRequired fuel scan g) := by
  simp only [← mem_insisted]
  refine ⟨⟨fun h m => h.insisted hmarking hverified,
    honoursRequired_of_insisted hmarking hverified⟩, fun hroots => ?_⟩
  refine honoursRequired_of_insisted hmarking hverified fun m hm _ => ?_
  obtain ⟨root, hroot, hrequired, kept, hkept, howner⟩ := Setting.mem_requiredCode.1 hm
  refine (C.mem_insisted scan).2 ⟨root, hroot, hrequired, kept, ?_, howner⟩
  cases hkind : root.kind with
  | method m =>
    rw [hkind] at hkept
    cases hkept
    rfl
  | reflectedMethod m => exact absurd hkind (hroots root hroot hrequired m)
  | constructed t =>
    rw [hkind] at hkept
    cases hkept
  | reflectedType t =>
    rw [hkind] at hkept
    cases hkept

end Assembled

end Compilation

/-! ### Plug-ins

A program has a plug-in and an aid for which no code can be made. -/

namespace Plugging

def app : TypeDecl := { id := 19, space := "App", name := "Program" }

def main : MethodDecl := .ofName 0 app "Main" { static := true }

def hook : MethodDecl := .ofName 1 app "Hook" { static := true }

def aid : MethodDecl := .ofName 2 app "Aid" { static := true }

def types : List TypeRecord :=
  [.ofMethods app (some .object) [main, hook, aid]]

def program : Program :=
  Program.withTypes types
    |>.setBody main.method [.ret]
    |>.setBody hook.method [.ret]
    |>.setBody aid.method [.ret]

/-- The plug-in is required in one way or another, and the aid is not. -/
def roots (kind : RootKind) : List Root :=
  [{ kind := .method main.method, reason := "entry point" }, { kind, reason := "plug-in" },
    { kind := .method aid.method, required := false, reason := "plug-in" }]

def compilation (kind : RootKind) : Compilation :=
  { program, roots := roots kind, generator := .refusing ["Hook", "Aid"] .listing }

/-- The plug-in may be a method root, or be reflected on. -/
def kinds : List RootKind := [.method hook.method, .reflectedMethod hook.method]

/-- The entry point, the plug-in and the aid do nothing. -/
theorem body?_eq_some {d : MethodDecl} (hd : d ∈ [main, hook, aid]) :
    program.body? d.method = some [.ret] := by
  simp only [List.mem_cons, List.not_mem_nil, or_false] at hd
  rcases hd with rfl | rfl | rfl <;> simp [program, main, hook, aid, MethodDecl.ofName]

/-! #### Marking -/

def nodes : List Node :=
  [.code main.method, .code hook.method, .code aid.method, .reflection (.method hook.method),
    .reflection (.type (.decl app)), .typeData (.decl app), .typeData .object]

section Marking

variable (x : Sealing)

abbrev setting : Setting := { program, sealing := x }

/-- The entry point, the plug-in and the aid need nothing. -/
theorem expand_code {d : MethodDecl} (hd : d ∈ [main, hook, aid]) :
    outcome ((setting x).expand (.code d.method)) = .ok {} := by
  have hconcrete : d.method.isAbstract = false := by
    simp only [List.mem_cons, List.not_mem_nil, or_false] at hd
    rcases hd with rfl | rfl | rfl <;> rfl
  exact (setting x).outcome_expand_code_singleton rfl hconcrete (body?_eq_some hd) rfl

/-- The program with a plug-in needs what is listed. -/
theorem selfContained_nodes : (setting x).SelfContained nodes := by
  have hmethod : outcome ((setting x).expand (.reflection (.method hook.method))) =
      .ok { edges := [⟨.reflection (.type (.decl app)), "declaring type"⟩] } := rfl
  have htype : outcome ((setting x).expand (.reflection (.type (.decl app)))) =
      .ok { edges := [⟨.typeData (.decl app), "reflected type"⟩] } := by
    have hdefinition : (Ty.decl app).definition = .decl app := rfl
    rw [Setting.expand, Setting.expandReflection, if_pos hdefinition]
    rfl
  have hdata := (setting x).outcome_expand_typeData (t := .decl app) (some .object) rfl rfl rfl
  have hobject := (setting x).outcome_expand_typeData (t := .object) none rfl rfl rfl
  refine .of_plain (.cons (expand_code x (by simp)) <| .cons (expand_code x (by simp)) <|
    .cons (expand_code x (by simp)) <| .cons hmethod <| .cons htype <| .cons hdata <|
    .cons hobject .nil) ?_ ?_ <;> simp [nodes]

/-- However the plug-in is required, its code is among what the root stands for. -/
theorem rootNodes_hook {kind : RootKind} (hkind : kind ∈ kinds) :
    ∃ l, outcome ((setting x).rootNodes kind) = .ok l ∧ .code hook.method ∈ l ∧ l ⊆ nodes := by
  simp only [kinds, List.mem_cons, List.not_mem_nil, or_false] at hkind
  rcases hkind with rfl | rfl
  · exact ⟨_, (setting x).rootNodes_method rfl rfl, by simp, by simp [nodes]⟩
  · have hroot : outcome ((setting x).rootNodes (.reflectedMethod hook.method)) =
        .ok [.reflection (.method hook.method), .code hook.method] := by
      have hruns : hook.method.isOpen = false ∧ hook.method.isAbstract = false := ⟨rfl, rfl⟩
      simp [Setting.rootNodes, hruns]
    exact ⟨_, hroot, by simp, by simp [nodes]⟩

/-- A marking succeeds, and marks the entry point, the plug-in and the aid. -/
theorem exists_marking {kind : RootKind} (hkind : kind ∈ kinds) : ∃ fuel g,
    outcome ((setting x).analyze fuel (roots kind) none) = .ok (some g) ∧
      ∀ m, g.isMarked (.code m) = true ↔ ∃ d ∈ [main, hook, aid], m = d.method := by
  obtain ⟨l, hhook, hmem, hwithin⟩ := rootNodes_hook x hkind
  have hstarts : ∀ n ∈ [[.code main.method], l, [.code aid.method]].flatten, n ∈ nodes := by
    simp only [List.flatten_cons, List.forall_mem_append]
    exact ⟨by simp [nodes], fun n hn => hwithin hn, by simp [nodes]⟩
  obtain ⟨fuel, g, hg, hroots, hnodes⟩ := (selfContained_nodes x).exists_analyze (roots kind)
    (.cons ((setting x).rootNodes_method rfl rfl) <| .cons hhook <|
      .cons ((setting x).rootNodes_method rfl rfl) .nil) hstarts
  refine ⟨fuel, g, hg, fun m => ⟨fun hm => by simpa [nodes] using hnodes _ hm, ?_⟩⟩
  rintro ⟨d, hd, rfl⟩
  simp only [List.mem_cons, List.not_mem_nil, or_false] at hd
  rcases hd with rfl | rfl | rfl <;> exact hroots _ (by simp [hmem])

end Marking

/-! #### Compiling -/

variable {kind : RootKind}

/-- No code can be made but for the entry point. -/
theorem fails_iff (scan : Scan) {d : MethodDecl} (hd : d ∈ [main, hook, aid]) :
    (compilation kind).Fails scan d.method ↔ d ≠ main := by
  have hbody : (compilation kind).program.body? d.method = some [.ret] := body?_eq_some hd
  rw [Compilation.Fails, Compilation.made, Compilation.generate, hbody]
  simp only [List.mem_cons, List.not_mem_nil, or_false] at hd
  rcases hd with rfl | rfl | rfl
  · exact iff_of_false Bool.noConfusion fun h => h rfl
  · exact iff_of_true rfl (by simp [hook, main, MethodDecl.ofName])
  · exact iff_of_true rfl (by simp [aid, main, MethodDecl.ofName])

/-- A scan and a marking succeed and agree, and both the plug-in and the aid are marked. -/
theorem exists_scan (hkind : kind ∈ kinds) : ∃ scanFuel scan fuel g,
    outcome ((compilation kind).scan scanFuel) = .ok (some scan) ∧ scan.roots = roots kind ∧
      outcome ((compilation kind).marking fuel scan) = .ok (some g) ∧
      Compilation.missedBy? g scan = none ∧
      ∀ m, g.isMarked (.code m) = true ↔ ∃ d ∈ [main, hook, aid], m = d.method := by
  obtain ⟨scanFuel, scan, fuel, g, hscan, hroots, hmarking, hscanned, hmarked⟩ :=
    Compilation.exists_marking_of_codes (C := compilation kind) rfl fun x => exists_marking x hkind
  refine ⟨scanFuel, scan, fuel, g, hscan, hroots, hmarking, ?_, hmarked⟩
  cases hmissed : Compilation.missedBy? g scan with
  | none => rfl
  | some m =>
    obtain ⟨hm, hnot⟩ := Compilation.isMarked_of_missedBy? hmissed
    rw [(hscanned m).2 ((hmarked m).1 hm)] at hnot
    cases hnot

/-- However the plug-in is required, its code is. -/
theorem hook_mem_requiredCode {scan : Scan} (hroots : scan.roots = roots kind)
    (hkind : kind ∈ kinds) :
    hook.method ∈ ((compilation kind).setting scan).requiredCode scan.roots := by
  have hkept : kind.code? = some hook.method := by
    simp only [kinds, List.mem_cons, List.not_mem_nil, or_false] at hkind
    rcases hkind with rfl | rfl <;> rfl
  rw [hroots]
  refine Setting.mem_requiredCode.2 ⟨_, List.mem_cons_of_mem _ List.mem_cons_self, rfl, hook.method,
    hkept, ?_⟩
  rw [Setting.value_codeOwner]
  exact ite_self _

/-- If the plug-in is a method root, the compilation fails and names the aid. -/
theorem honoursRequired_hook : ∃ scanFuel scan fuel g,
    outcome ((compilation (.method hook.method)).scan scanFuel) = .ok (some scan) ∧
      outcome ((compilation (.method hook.method)).marking fuel scan) = .ok (some g) ∧
      hook.method ∈ ((compilation (.method hook.method)).setting scan).requiredCode scan.roots ∧
      (compilation (.method hook.method)).Fails scan hook.method ∧
      (compilation (.method hook.method)).HonoursRequired fuel scan g := by
  obtain ⟨scanFuel, scan, fuel, g, hscan, hroots, hmarking, hverified, -⟩ :=
    @exists_scan (.method hook.method) (by simp [kinds])
  refine ⟨scanFuel, scan, fuel, g, hscan, hmarking, hook_mem_requiredCode hroots (by simp [kinds]),
    (fails_iff scan (by simp)).2 (by simp [hook, main, MethodDecl.ofName]),
    (Compilation.honoursRequired_iff hmarking fun _ => hverified).2 ?_⟩
  intro root hroot _ m
  rw [hroots] at hroot
  simp only [roots, List.mem_cons, List.not_mem_nil, or_false] at hroot
  rcases hroot with rfl | rfl | rfl <;> simp

/-- If the plug-in is reflected on, it becomes a stub, though it is required. -/
theorem exists_compile_stubbing_required : ∃ scanFuel scan fuel r e,
    outcome ((compilation (.reflectedMethod hook.method)).scan scanFuel) = .ok (some scan) ∧
      outcome ((compilation (.reflectedMethod hook.method)).compile fuel scan) = .ok (some r) ∧
      hook.method ∈ ((compilation (.reflectedMethod hook.method)).setting scan).requiredCode
        scan.roots ∧
      e ∈ r.methods ∧ e.method = hook.method ∧ e.isStub = true := by
  obtain ⟨scanFuel, scan, fuel, g, hscan, hroots, hmarking, hverified, hmarked⟩ :=
    @exists_scan (.reflectedMethod hook.method) (by simp [kinds])
  have hinsisted : ∀ m ∈ Compilation.codes g,
      (compilation (.reflectedMethod hook.method)).Fails scan m →
        m ∉ (compilation (.reflectedMethod hook.method)).insisted scan := by
    intro m hm hfails hmem
    obtain ⟨d, hd, rfl⟩ := (hmarked m).1 (Compilation.mem_codes.1 hm)
    obtain ⟨root, hroot, hrequired, kept, hkept, howner⟩ := (Compilation.mem_insisted _ _).1 hmem
    rw [hroots] at hroot
    simp only [roots, List.mem_cons, List.not_mem_nil, or_false] at hroot
    rcases hroot with rfl | rfl | rfl
    · cases hkept
      rw [Setting.value_codeOwner, MethodDecl.canonical_method, ite_self,
        MethodDecl.method_inj] at howner
      exact (fails_iff scan hd).1 hfails howner.symm
    · cases hkept
    · cases hrequired
  obtain ⟨r, hr, hgraph⟩ :=
    Compilation.exists_compile_of_insisted hmarking (fun _ => hverified) hinsisted
  have hhook : r.graph.isMarked (.code hook.method) = true :=
    hgraph ▸ (hmarked _).2 ⟨hook, by simp, rfl⟩
  obtain ⟨e, he, hsymbol⟩ := Compilation.exists_mem_methods hr hhook
  obtain ⟨hemarked, heown⟩ := Compilation.isMarked_of_mem_methods hr he
  have hmethod : e.method = hook.method := by
    obtain ⟨d, hd, hed⟩ := (hmarked _).1 (hgraph ▸ hemarked)
    have hname := Method.symbol_eq_iff.1 (heown.symm.trans hsymbol)
    rw [hed] at hname ⊢
    simp only [List.mem_cons, List.not_mem_nil, or_false] at hd
    rcases hd with rfl | rfl | rfl
    · exact absurd hname (by decide)
    · rfl
    · exact absurd hname (by decide)
  refine ⟨scanFuel, scan, fuel, r, e, hscan, hr, hook_mem_requiredCode hroots (by simp [kinds]), he,
    hmethod, (Compilation.isStub_iff hr he).2 ?_⟩
  rw [hmethod]
  exact (fails_iff scan (by simp)).2 (by simp [hook, main, MethodDecl.ofName])

end Plugging

end AheadOfTime
