import AheadOfTime.Proofs.Compile.Required
import AheadOfTime.Proofs.Marking.Once

/-!
# What a scan tolerates

A marking goes on when a node fails, and notes the failure.  In the end one kind of failure is
tolerated: code without a body on which no root insists.  Any other makes the scan fail.  So in a
scan that succeeds nothing is nested too deep, and the failures are exactly the marked code without
a body, once each.

An error is recorded where a node is expanded or searches.  Searches meet faults only, which are
fatal, and so does the expansion of everything but code without a body (`eq_code_of_expand_error`).
What the list of required nodes says about code is what the required roots keep
(`requiredNode_code_iff`).  That no node is noted twice is a matter of the marking itself
(`Analysis.Tallies.nodup_failures`).
-/

set_option autoImplicit false

namespace AheadOfTime

open Marking

/-- The code of a method that is not abstract has no body. -/
def Program.LacksBody (P : Program) (m : Method) : Prop :=
  m.isAbstract = false ∧ P.body? m = none

namespace Setting

variable {S : Setting} {roots : List Root}

/-- A failure that a scan survives: there is no body for code on which no root insists. -/
def Tolerable (S : Setting) (roots : List Root) (f : Failure Node Diagnostic) : Prop :=
  ∃ m, f.node = .code m ∧ f.error = .bodyNotAvailable m.displayName ∧ S.program.LacksBody m ∧
    m ∉ S.requiredCode roots

/-- What a graph says about its nodes and failures if the marking of the roots succeeded. -/
structure Assured (S : Setting) (roots : List Root) (g : NodeGraph) : Prop where
  /-- Nothing is nested too deep. -/
  depth : ∀ n, g.isMarked n = true → n.depth ≤ S.options.maxDepth
  /-- No node is noted twice. -/
  once : (g.failures.toList.map (·.node)).Nodup
  /-- The nodes that failed are the marked code without a body. -/
  failed : ∀ n, (∃ f ∈ g.failures.toList, f.node = n) ↔
    ∃ m, n = .code m ∧ g.isMarked n = true ∧ S.program.LacksBody m
  /-- They failed for that reason. -/
  error : ∀ f ∈ g.failures.toList, ∃ m, f.node = .code m ∧ f.error = .bodyNotAvailable m.displayName
  /-- What required roots keep has not failed, be it their own code or the code that they share. -/
  required : ∀ m ∈ S.requiredCode roots, ∀ f ∈ g.failures.toList, f.node ≠ .code m

/-! ## Errors -/

/-- Code without a body fails for that reason, unless it is nested too deep. -/
theorem expand_of_lacksBody {m : Method} (h : S.program.LacksBody m)
    (hdepth : outcome (S.checkMethod m) = .ok ()) :
    outcome (S.expand (.code m)) = .error (.bodyNotAvailable m.displayName) := by
  rw [outcome_expand_code, hdepth, h.1, h.2]
  rfl

/-- Code without a body fails. -/
theorem exists_expand_error {m : Method} (h : S.program.LacksBody m) :
    ∃ e, outcome (S.expand (.code m)) = .error e := by
  cases hcheck : outcome (S.checkMethod m) with
  | ok u => exact ⟨_, expand_of_lacksBody h hcheck⟩
  | error e => exact ⟨e, by rw [outcome_expand_code, hcheck, error_bind]⟩

/-- What fails without a fault is code without a body. -/
theorem eq_code_of_expand_error {n : Node} {e : Diagnostic}
    (h : outcome (S.expand n) = .error e) (he : e.isFault = false) :
    ∃ m, n = .code m ∧ e = .bodyNotAvailable m.displayName ∧ S.program.LacksBody m ∧
      outcome (S.checkMethod m) = .ok () := by
  have hcode : ∃ m, n = .code m ∧ S.program.LacksBody m := by
    by_contra hnone
    have hfault := S.faulty_expand n (fun m hm => ?_) e h
    · rw [hfault] at he
      cases he
    · by_contra hbody
      simp only [not_or, Bool.not_eq_true, Option.isSome_eq_false_iff,
        Option.isNone_iff_eq_none] at hbody
      exact hnone ⟨m, hm, hbody⟩
  obtain ⟨m, rfl, hlacks⟩ := hcode
  cases hcheck : outcome (S.checkMethod m) with
  | error e' =>
    rw [outcome_expand_code, hcheck] at h
    cases h
    rw [S.faulty_checkMethod m e hcheck] at he
    cases he
  | ok u =>
    rw [expand_of_lacksBody hlacks hcheck] at h
    cases h
    exact ⟨m, rfl, rfl, hlacks, hcheck⟩

/-- A node that meets no fault is not nested too deep. -/
theorem depth_le_of_not_fault {n : Node}
    (h : ∀ e, outcome (S.expand n) = .error e → e.isFault = false) :
    n.depth ≤ S.options.maxDepth := by
  cases hn : outcome (S.expand n) with
  | ok x => exact depth_le_of_expand hn
  | error e =>
    obtain ⟨m, rfl, -, -, hcheck⟩ := eq_code_of_expand_error hn (h e hn)
    exact depth_le_of_checkMethod hcheck

/-! ## Required code -/

/-- A node insists on code if it is that code, or if it runs on it. -/
theorem code_mem_requiredNodes {n : Node} {m : Method} :
    .code m ∈ (S.requiredNodes n).value ↔
      n = .code m ∨ ∃ kept, n = .shadow kept ∧ (S.codeOwner kept).value = m := by
  cases n with
  | shadow kept => simp [requiredNodes, eq_comm]
  | _ => simp [requiredNodes, eq_comm]

/-- The node of a method insists on the code that the method runs on, and on no other code. -/
theorem code_mem_requiredNodes_codeNode {kept m : Method} :
    .code m ∈ (S.requiredNodes (S.codeNode kept).value).value ↔ (S.codeOwner kept).value = m := by
  rw [code_mem_requiredNodes, value_codeNode]
  split
  · next howner => simp [howner]
  · simp

/-- Only the code that a root keeps has a node of code among those of the root. -/
theorem eq_codeNode_of_mem_rootNodes {kind : RootKind} {nodes : List Node} {n : Node}
    (h : outcome (S.rootNodes kind) = .ok nodes) (hn : n ∈ nodes) (hcode : n.isDeferred = true) :
    ∃ kept, kind.code? = some kept ∧ n = (S.codeNode kept).value := by
  cases kind with
  | method m =>
    simp only [rootNodes] at h
    split at h
    · cases h
    · cases h
      exact ⟨m, rfl, List.mem_singleton.1 hn⟩
  | reflectedMethod m =>
    simp only [rootNodes] at h
    split at h
    · next hruns =>
      cases h
      simp only [Bool.and_eq_true, Bool.not_eq_true'] at hruns
      rcases List.mem_cons.1 hn with rfl | hn
      · cases hcode
      · exact ⟨m, by simp [RootKind.code?, hruns], List.mem_singleton.1 hn⟩
    · cases h
      cases List.mem_singleton.1 hn
      cases hcode
  | constructed t =>
    simp only [rootNodes] at h
    split at h
    · cases h
    · cases h
      cases List.mem_singleton.1 hn
      cases hcode
  | reflectedType t =>
    cases h
    rcases List.mem_cons.1 hn with rfl | hn
    · cases hcode
    · split at hn
      · cases List.mem_singleton.1 hn
        cases hcode
      · cases hn

/-- The nodes of a root insist on the code that it keeps, and on no other code. -/
theorem exists_requiredNodes_iff {kind : RootKind} {nodes : List Node}
    (h : outcome (S.rootNodes kind) = .ok nodes) {m : Method} :
    (∃ k ∈ nodes, .code m ∈ (S.requiredNodes k).value) ↔
      ∃ kept, kind.code? = some kept ∧ (S.codeOwner kept).value = m := by
  constructor
  · rintro ⟨k, hk, hm⟩
    have hcode : k.isDeferred = true := by
      rcases code_mem_requiredNodes.1 hm with rfl | ⟨kept, rfl, -⟩ <;> rfl
    obtain ⟨kept, hkept, rfl⟩ := eq_codeNode_of_mem_rootNodes h hk hcode
    exact ⟨kept, hkept, code_mem_requiredNodes_codeNode.1 hm⟩
  · rintro ⟨kept, hkept, howner⟩
    exact ⟨_, codeNode_mem_rootNodes hkept h, code_mem_requiredNodes_codeNode.2 howner⟩

/-- Once the roots are added, the code that must not fail is what required roots keep. -/
theorem requiredNode_code_iff {start start' : Start}
    (h : outcome (roots.foldlM S.addRoot start) = .ok start') {m : Method} :
    S.RequiredNode roots (.code m) ↔ m ∈ S.requiredCode roots := by
  rw [mem_requiredCode]
  refine exists_congr fun root => and_congr_right fun hroot => and_congr_right fun hrequired => ?_
  obtain ⟨nodes, hnodes⟩ := (exists_addRoots_iff start).1 ⟨start', h⟩ root hroot hrequired
  rw [← exists_requiredNodes_iff hnodes, hnodes]
  simp

/-! ## Failures of a finished marking -/

/-- Adding roots is something that can happen to a marking. -/
theorem exists_leads_addRoots {start start' : Start}
    (h : outcome (roots.foldlM S.addRoot start) = .ok start') {before : Log Node Diagnostic}
    {events : Array (Event Node)} (hstart : Log.Leads S.system before ⟨start.analysis, events⟩) :
    ∃ events', Log.Leads S.system before ⟨start'.analysis, events'⟩ := by
  induction roots generalizing start events with
  | nil =>
    cases h
    exact ⟨events, hstart⟩
  | cons root roots ih =>
    rw [List.foldlM_cons, outcome_bind] at h
    obtain ⟨mid, hmid, h⟩ := bind_eq_ok.1 h
    have hstep : ∃ events', Log.Leads S.system before ⟨mid.analysis, events'⟩ := by
      rw [outcome_addRoot] at hmid
      split at hmid
      · split at hmid
        · cases hmid
        · cases hmid
          exact ⟨events, hstart⟩
      · next nodes _ =>
        cases hmid
        refine List.foldlRecOn nodes _ (motive := fun a : Analysis Node Diagnostic =>
          ∃ events', Log.Leads S.system before ⟨a, events'⟩) ⟨events, hstart⟩ ?_
        rintro a ⟨events', ha⟩ n -
        exact ⟨_, ha.tail (.addRoot _ n root.reason)⟩
    obtain ⟨events', hmid⟩ := hstep
    exact ih h hmid

section Finished

variable {fuel : Nat} {cancelled : Option Bool} {start : Start} {a : Analysis Node Diagnostic}
  (hstart : outcome (roots.foldlM S.addRoot (initialStart cancelled)) = .ok start)
  (hrun : (start.analysis.run S.system fuel).value = .finished a)

include hstart hrun

/-- No node is noted twice as failed. -/
theorem nodup_failures_of_run : (a.failures.map (·.node)).Nodup := by
  have hsignal : Log.Leads S.system {} ⟨(initialStart cancelled).analysis, #[]⟩ :=
    .single (.signal {} cancelled.isSome (cancelled.getD false))
  obtain ⟨events, hroots⟩ := exists_leads_addRoots hstart hsignal
  have hfinished := hroots.tail (.run _ fuel (.inl hrun))
  exact (Log.accurate_of_leads hfinished).tallies.nodup_failures

/-- The marking is sound and complete. -/
theorem valid_of_run : Analysis.Valid S.system (fun _ => True) a ∧ a.Complete S.system := by
  have hall := S.system.closed_true
  have hv := (valid_addRoots hall hstart (valid_initialStart _ cancelled) fun _ _ => trivial).1
  have hleads := hv.run hall S.nodeByNode_system fuel
  rw [hrun] at hleads
  exact ⟨hleads.1, hleads.2.2⟩

/-- What is not decisive is what can be tolerated. -/
theorem isDecisive_eq_false_iff {f : Failure Node Diagnostic} (hf : f ∈ a.failures) :
    isDecisive start.required f = false ↔ S.Tolerable roots f := by
  have hrequired : ∀ n, n ∈ start.required ↔ S.RequiredNode roots n := by
    intro n
    rw [mem_required_addRoots hstart]
    simp [initialStart]
  rw [isDecisive, Bool.or_eq_false_iff, List.contains_eq_mem, decide_eq_false_iff_not, hrequired]
  constructor
  · rintro ⟨hfatal, hspared⟩
    have hnot : f.error.isFault = false := by
      rw [Bool.eq_false_iff]
      intro hfault
      rw [Diagnostic.isFatal_of_isFault hfault] at hfatal
      cases hfatal
    rcases ((valid_of_run hstart hrun).1.sound.failures f hf).2 with herror | ⟨l, -, herror⟩
    · obtain ⟨m, hnode, hcause, hlacks, -⟩ := eq_code_of_expand_error herror hnot
      refine ⟨m, hnode, hcause, hlacks, fun hm => hspared ?_⟩
      rw [hnode]
      exact (requiredNode_code_iff hstart).2 hm
    · rw [S.faulty_search f.node l f.error herror] at hnot
      cases hnot
  · rintro ⟨m, hnode, hcause, -, hm⟩
    rw [hnode, hcause, requiredNode_code_iff hstart]
    exact ⟨rfl, hm⟩

/-- If all failures can be tolerated, the graph is as a successful marking leaves it. -/
theorem assured_of_run (htolerable : ∀ f ∈ a.failures, S.Tolerable roots f) :
    S.Assured roots a.graph := by
  obtain ⟨hv, hcomplete⟩ := valid_of_run hstart hrun
  constructor
  · intro n hn
    refine depth_le_of_not_fault fun e he => ?_
    obtain ⟨f, hf, -, rfl⟩ := hcomplete.failed ((a.isMarked_iff n).1 hn) he
    obtain ⟨m, -, hcause, -⟩ := htolerable f hf
    rw [hcause]
    rfl
  · exact nodup_failures_of_run hstart hrun
  · intro n
    constructor
    · rintro ⟨f, hf, rfl⟩
      obtain ⟨m, hnode, -, hlacks, -⟩ := htolerable f hf
      have hmarked := List.mem_of_getElem? (hv.sound.failures f hf).1
      exact ⟨m, hnode, (a.isMarked_iff _).2 hmarked, hlacks⟩
    · rintro ⟨m, rfl, hmarked, hlacks⟩
      obtain ⟨e, he⟩ := exists_expand_error hlacks
      obtain ⟨f, hf, hnode, -⟩ := hcomplete.failed ((a.isMarked_iff _).1 hmarked) he
      exact ⟨f, hf, hnode⟩
  · intro f hf
    obtain ⟨m, hnode, hcause, -⟩ := htolerable f hf
    exact ⟨m, hnode, hcause⟩
  · rintro m hm f hf hnode
    obtain ⟨m', hnode', -, -, hm'⟩ := htolerable f hf
    cases hnode.symm.trans hnode'
    exact hm' hm

/-- A finished marking succeeds if all failures can be tolerated. -/
theorem analyze_of_tolerable (htolerable : ∀ f ∈ a.failures, S.Tolerable roots f) :
    outcome (S.analyze fuel roots cancelled) = .ok (some a.graph) := by
  have hfind : a.graph.failures.find? (isDecisive start.required) = none := by
    rw [Array.find?_eq_none]
    intro f hf
    have hf : f ∈ a.failures := Array.mem_toList_iff.2 hf
    rw [(isDecisive_eq_false_iff hstart hrun hf).2 (htolerable f hf)]
    exact Bool.false_ne_true
  rw [outcome_analyze, hstart, ok_bind, hrun]
  dsimp only
  rw [hfind]

/-- It fails with the first failure that cannot. -/
theorem analyze_of_not_tolerable {f : Failure Node Diagnostic} (hf : f ∈ a.failures)
    (hnot : ¬ S.Tolerable roots f) :
    ∃ f' ∈ a.failures, ¬ S.Tolerable roots f' ∧
      outcome (S.analyze fuel roots cancelled) = .error f'.error := by
  have hanalyze := outcome_analyze (S := S) fuel roots cancelled
  rw [hstart, ok_bind, hrun] at hanalyze
  dsimp only at hanalyze
  cases hfind : a.graph.failures.find? (isDecisive start.required) with
  | none =>
    have hspared := Array.find?_eq_none.1 hfind f (Array.mem_toList_iff.1 hf)
    rw [Bool.not_eq_true, isDecisive_eq_false_iff hstart hrun hf] at hspared
    exact absurd hspared hnot
  | some f' =>
    rw [hfind] at hanalyze
    have hf' : f' ∈ a.failures := Array.mem_toList_iff.2 (Array.mem_of_find?_eq_some hfind)
    refine ⟨f', hf', fun htolerable => ?_, hanalyze⟩
    have hdecisive := Array.find?_some hfind
    rw [(isDecisive_eq_false_iff hstart hrun hf').2 htolerable] at hdecisive
    cases hdecisive

end Finished

/-- A marking that succeeds has met only what it tolerates. -/
theorem assured_of_analyze {fuel : Nat} {cancelled : Option Bool} {g : NodeGraph}
    (h : outcome (S.analyze fuel roots cancelled) = .ok (some g)) : S.Assured roots g := by
  obtain ⟨start, a, hstart, hrun, rfl, hdecisive⟩ := exists_run_of_analyze h
  refine assured_of_run hstart hrun fun f hf => ?_
  exact (isDecisive_eq_false_iff hstart hrun hf).1 (hdecisive f hf)

end Setting

/-- The setting of a scan. -/
abbrev Program.setting (P : Program) (options : Options) : Setting := { program := P, options }

/-- A scan fails if the analysis does, with the same error. -/
theorem Program.scan_of_analyze_error {P : Program} {fuel : Nat} {options : Options}
    {roots : List Root} {cancelled : Option Bool} {e : Diagnostic}
    (h : outcome ((P.setting options).analyze fuel roots cancelled) = .error e) :
    outcome (P.scan fuel options roots cancelled) = .error e := by
  unfold Program.scan
  rw [outcome_bind, h, error_bind]

/-- Whatever the catalog holds, a scan that succeeds has marked nothing that is nested too deep, and
its failures are the marked code without a body, once each, none of which a required root keeps.  A
marking that is finished succeeds exactly if it has no other failures. -/
theorem Program.scan_tolerates (P : Program) (fuel : Nat) (options : Options) (roots : List Root)
    (cancelled : Option Bool) :
    (∀ (catalog : Catalog) (scan : Scan),
      ((P.scan fuel options roots cancelled).run.run catalog).1 = .ok (some scan) →
        (P.setting options).Assured roots scan.graph) ∧
    ∀ start a,
      outcome (roots.foldlM (P.setting options).addRoot (Setting.initialStart cancelled)) =
        .ok start →
      (start.analysis.run (P.setting options).system fuel).value = .finished a →
        ((∀ f ∈ a.failures, (P.setting options).Tolerable roots f) → ∀ catalog : Catalog,
          ((P.scan fuel options roots cancelled).run.run catalog).1 =
            .ok (some ⟨a.graph, roots⟩)) ∧
        ∀ f ∈ a.failures, ¬ (P.setting options).Tolerable roots f →
          ∃ f' ∈ a.failures, ¬ (P.setting options).Tolerable roots f' ∧ ∀ catalog : Catalog,
            ((P.scan fuel options roots cancelled).run.run catalog).1 = .error f'.error := by
  refine ⟨fun catalog scan h => ?_, fun start a hstart hrun => ⟨fun h catalog => ?_, ?_⟩⟩
  · rw [Recorded.fst_run] at h
    exact Setting.assured_of_analyze (scan_eq_ok_iff.1 h).1
  · rw [Recorded.fst_run]
    exact scan_eq_ok_iff.2 ⟨Setting.analyze_of_tolerable hstart hrun h, rfl⟩
  · intro f hf hnot
    obtain ⟨f', hf', hnot', herror⟩ := Setting.analyze_of_not_tolerable hstart hrun hf hnot
    refine ⟨f', hf', hnot', fun catalog => ?_⟩
    rw [Recorded.fst_run]
    exact scan_of_analyze_error herror

/-! ### Crates

A program with crates that can be weighed, though nobody says how. -/

namespace Weighing

def app : TypeDecl := { id := 19, space := "App", name := "Program" }

def crate : TypeDecl := { id := 20, space := "App", name := "Crate", arity := 1 }

def main : MethodDecl := .ofName 0 app "Main" { static := true }

def weigh : MethodDecl := .ofName 1 crate "Weigh" {}

/-- Weighing a crate of texts, which runs on the code that crates of objects share. -/
def weighTexts : Method := ⟨weigh, .app (.decl crate) (.ofWellKnown .string), []⟩

/-- The code that crates of objects share. -/
def weighAny : Method := weighTexts.canonical

def types : List TypeRecord :=
  [.ofMethods app (some .object) [main], .ofMethods crate (some .object) [weigh]]

def program : Program :=
  (Program.withTypes types).setBody main.method [.ret]

/-- The entry point and the crate of texts, which is required or not. -/
def roots (required : Bool) : List Root :=
  [{ kind := .method main.method, reason := "entry point" },
    { kind := .method weighTexts, required, reason := "library" }]

abbrev setting : Setting := program.setting {}

def nodes : List Node := [.code main.method, .shadow weighTexts, .code weighAny]

/-- Weighing has no body, whatever is in the crate. -/
theorem lacksBody_weigh {m : Method} (hm : m.decl = weigh) : program.LacksBody m := by
  constructor
  · rw [Method.isAbstract, Method.flags, hm]
    rfl
  · simp [program, Program.body?_withTypes, Method.typical, hm, weigh, main, MethodDecl.ofName]

/-- Weighing texts runs on the code that crates of objects share. -/
theorem value_codeOwner_weighTexts : (setting.codeOwner weighTexts).value = weighAny := by
  rw [Setting.value_codeOwner]
  rfl

/-- The entry point needs nothing. -/
theorem expand_main : outcome (setting.expand (.code main.method)) = .ok {} :=
  setting.outcome_expand_code_singleton (i := .ret) rfl rfl (by simp [program]) rfl

/-- Weighing texts needs the shared code and nothing else. -/
theorem expand_weighTexts : outcome (setting.expand (.shadow weighTexts)) =
    .ok { edges := [⟨.code weighAny, "shared code"⟩] } := by
  have hbody : program.body? weighTexts = none := (lacksBody_weigh rfl).2
  rw [Setting.outcome_expand_shadow, hbody, value_codeOwner_weighTexts]
  rfl

/-- The shared code fails, as there is no body for it. -/
theorem expand_weighAny : outcome (setting.expand (.code weighAny)) =
    .error (.bodyNotAvailable weighAny.displayName) :=
  Setting.expand_of_lacksBody (lacksBody_weigh rfl) rfl

/-- The listed nodes are closed under what they need. -/
theorem closed_nodes : setting.system.Closed (· ∈ nodes) := by
  have hexpand : ∀ {n : Node} {x : Expansion Node}, n ∈ nodes → outcome (setting.expand n) = .ok x →
      (∀ e ∈ x.edges, e.target ∈ nodes) ∧ x.conditional = [] := by
    intro n x hn hx
    simp only [nodes, List.mem_cons, List.not_mem_nil, or_false] at hn
    rcases hn with rfl | rfl | rfl
    · cases expand_main.symm.trans hx
      simp
    · cases expand_weighTexts.symm.trans hx
      simp [nodes]
    · cases expand_weighAny.symm.trans hx
  refine setting.nodeByNode_system.closed (fun hn hx => (hexpand hn hx).1) ?_ ?_
  · intro n x hn hx e he
    rw [(hexpand hn hx).2] at he
    cases he
  · intro n k x found hn _ hdynamic
    simp only [nodes, List.mem_cons, List.not_mem_nil, or_false] at hn
    rcases hn with rfl | rfl | rfl <;> cases hdynamic

/-- The entry point stands for its code. -/
theorem rootNodes_main : outcome (setting.rootNodes (.method main.method)) =
    .ok [.code main.method] :=
  setting.rootNodes_method rfl rfl

/-- The root for texts stands for weighing on shared code. -/
theorem rootNodes_weighTexts : outcome (setting.rootNodes (.method weighTexts)) =
    .ok [.shadow weighTexts] := by
  have hopen : weighTexts.isOpen = false := rfl
  have hne : weighAny ≠ weighTexts := fun heq =>
    nomatch (congrArg Method.hasCanon heq : true = false)
  have hnode : (setting.codeNode weighTexts).value = .shadow weighTexts := by
    rw [Setting.value_codeNode, value_codeOwner_weighTexts, if_neg hne]
  simp [Setting.rootNodes, hopen, hnode]

variable {required : Bool}

/-- The roots insist on the shared code exactly if the crate of texts is required. -/
theorem weighAny_mem_requiredCode_iff :
    weighAny ∈ setting.requiredCode (roots required) ↔ required = true := by
  have hne : weighAny ≠ main.method := by
    intro heq
    cases congrArg Method.decl heq
  cases required with
  | false => simp [Setting.requiredCode, roots, RootKind.code?, Setting.value_codeOwner, hne]
  | true =>
    have hroot : { kind := .method weighTexts, reason := "library" } ∈ roots true :=
      List.mem_cons_of_mem _ List.mem_cons_self
    refine iff_of_true (Setting.mem_requiredCode.2 ⟨_, hroot, rfl, weighTexts, rfl, ?_⟩) rfl
    exact value_codeOwner_weighTexts

/-- Every marking that succeeds reaches the shared code. -/
theorem isMarked_weighAny {fuel : Nat} {g : NodeGraph}
    (h : outcome (setting.analyze fuel (roots required) none) = .ok (some g)) :
    g.isMarked (.code weighAny) = true := by
  have hfixed := Setting.fixedPoint_of_analyze h
  have htexts : g.isMarked (.shadow weighTexts) = true :=
    hfixed.root ⟨_, List.mem_cons_of_mem _ List.mem_cons_self, _, rootNodes_weighTexts,
      List.mem_singleton_self _⟩
  exact hfixed.edge htexts expand_weighTexts _ (List.mem_singleton_self _)

/-- The marking is finished, and what fails in it is the shared code. -/
theorem exists_run (required : Bool) : ∃ fuel start a,
    outcome ((roots required).foldlM setting.addRoot (Setting.initialStart none)) = .ok start ∧
      (start.analysis.run setting.system fuel).value = .finished a ∧
      (∃ f, f ∈ a.failures) ∧ ∀ f ∈ a.failures,
        f.node = .code weighAny ∧ f.error = .bodyNotAvailable weighAny.displayName := by
  have hroots : ∀ r ∈ roots required, ∃ l, outcome (setting.rootNodes r.kind) = .ok l ∧
      ∀ n ∈ l, n ∈ nodes := by
    intro r hr
    simp only [roots, List.mem_cons, List.not_mem_nil, or_false] at hr
    rcases hr with rfl | rfl
    · exact ⟨_, rootNodes_main, by simp [nodes]⟩
    · exact ⟨_, rootNodes_weighTexts, by simp [nodes]⟩
  obtain ⟨fuel, start, a, hstart, hrun, hv⟩ := Setting.exists_run_of_closed closed_nodes hroots
  refine ⟨fuel, start, a, hstart, hrun, ?_, fun f hf => ?_⟩
  · -- otherwise the marking would succeed, though it reaches code without a body
    by_contra hnone
    have htolerable : ∀ f ∈ a.failures, setting.Tolerable (roots required) f := fun f hf =>
      absurd ⟨f, hf⟩ hnone
    have hmarked := isMarked_weighAny (Setting.analyze_of_tolerable hstart hrun htolerable)
    obtain ⟨f, hf, -⟩ := ((Setting.assured_of_run hstart hrun htolerable).failed _).2
      ⟨weighAny, rfl, hmarked, lacksBody_weigh rfl⟩
    exact hnone ⟨f, hf⟩
  · obtain ⟨hnode, hcause⟩ := hv.sound.failures f hf
    have hmem := hv.sound.within _ (List.mem_of_getElem? hnode)
    rcases hcause with herror | ⟨l, -, herror⟩
    · simp only [nodes, List.mem_cons, List.not_mem_nil, or_false] at hmem
      rcases hmem with heq | heq | heq <;> rw [Setting.value_expand_system, heq] at herror
      · cases expand_main.symm.trans herror
      · cases expand_weighTexts.symm.trans herror
      · exact ⟨heq, (Except.error.inj (expand_weighAny.symm.trans herror)).symm⟩
    · simp only [nodes, List.mem_cons, List.not_mem_nil, or_false] at hmem
      rcases hmem with heq | heq | heq <;> rw [heq] at herror <;> cases herror

/-- If the crate of texts is not required, the scan succeeds with one failure; if it is, the scan
fails, though the code that is missing is not its own. -/
theorem scan_tolerates_crates :
    (∃ fuel scan, ((program.scan fuel {} (roots false) none).run.run .initial).1 =
        .ok (some scan) ∧
      (∃ f ∈ scan.graph.failures.toList, f.node = .code weighAny) ∧
      setting.Assured (roots false) scan.graph) ∧
    ∃ fuel, ((program.scan fuel {} (roots true) none).run.run .initial).1 =
      .error (.bodyNotAvailable weighAny.displayName) := by
  constructor
  · obtain ⟨fuel, start, a, hstart, hrun, ⟨f, hf⟩, hfailures⟩ := exists_run false
    obtain ⟨hassured, hfinished⟩ := program.scan_tolerates fuel {} (roots false) none
    have hscan := (hfinished start a hstart hrun).1 (fun f hf => ⟨weighAny, (hfailures f hf).1,
      (hfailures f hf).2, lacksBody_weigh rfl, fun hm => nomatch weighAny_mem_requiredCode_iff.1 hm⟩)
      .initial
    exact ⟨fuel, _, hscan, ⟨f, hf, (hfailures f hf).1⟩, hassured _ _ hscan⟩
  · obtain ⟨fuel, start, a, hstart, hrun, ⟨f, hf⟩, hfailures⟩ := exists_run true
    have hrequired : ¬ setting.Tolerable (roots true) f := by
      rintro ⟨m, hnode, -, -, hm⟩
      cases (hfailures f hf).1.symm.trans hnode
      exact hm (weighAny_mem_requiredCode_iff.2 rfl)
    obtain ⟨f', hf', -, hscan⟩ := ((program.scan_tolerates fuel {} (roots true) none).2 start a hstart
      hrun).2 f hf hrequired
    exact ⟨fuel, (hscan .initial).trans (congrArg _ (hfailures f' hf').2)⟩

end Weighing

end AheadOfTime
