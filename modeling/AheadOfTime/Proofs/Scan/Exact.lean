import AheadOfTime.Proofs.Scan.GenericOverrides
import AheadOfTime.Proofs.Scan.Vocabulary

/-!
# Where the placeholder may stand

The placeholder belongs into shared code and into the owners of slots.  Everything else that a scan
marks should be about exact types: the types of which objects exist, and the methods that run on
shared code, say which types the program really uses.

Types that do not mention the placeholder are a vocabulary: as long as declarations, bodies and roots
do not mention it either, it can only come from what is shared.  Shared code leaves it out.  A slot
keeps it in its owner, and the search for overrides starts from there; it finds exact methods, unless
it finds none and hands back the slot itself.  That is the only way in which the placeholder gets
into what should be exact, and it does so whenever the slot is not the code that it would run on.
-/

set_option autoImplicit false

namespace AheadOfTime

open Marking

/-! ## What does not mention the placeholder -/

namespace NodeVocabulary

/-- What does not mention the placeholder.  Code may be shared, and of a slot only the arguments have
to be exact. -/
def exact : NodeVocabulary where
  type t := t.hasCanon = false
  method m := m.hasCanon = false
  object t := t.hasCanon = false
  field _ := True
  code _ := True
  shadow m := m.hasCanon = false
  slot m := ∀ a ∈ m.args, a.hasCanon = false

/-- What does not mention the placeholder is what is spelled without it. -/
theorem toVocabulary_exact : exact.toVocabulary = Alphabet.exact.vocabulary fun _ => True := by
  simp [exact, Alphabet.vocabulary, Ty.over_exact_iff, Method.hasCanon]

/-- A node is exact if it is code, or does not mention the placeholder. -/
theorem hasNode_exact_iff {n : Node} :
    exact.HasNode n ↔ (n.kind ≠ .code → n.hasCanon = false) := by
  cases n with
  | code m => simp [HasNode, exact, Node.kind]
  | slot m => simp [HasNode, exact, Node.kind, Node.hasCanon]
  | reflection r => cases r <;> simp [HasNode, exact, Node.kind, Node.hasCanon]
  | _ => simp [HasNode, exact, Node.kind, Node.hasCanon]

end NodeVocabulary

open NodeVocabulary (exact hasNode_exact_iff)

/-- Neither declarations nor bodies mention the placeholder. -/
structure Program.Exact (P : Program) : Prop where
  base : ∀ r ∈ P.types.toList, ∀ b ∈ r.base.join, b.hasCanon = false
  interfaces : ∀ r ∈ P.types.toList, ∀ i ∈ r.interfaces.getD [], i.hasCanon = false
  overrides : ∀ r ∈ P.types.toList, ∀ o ∈ r.overrides.declared,
    o.decl.hasCanon = false ∧ o.body.hasCanon = false
  bodies : ∀ {m : Method} {body : Body}, P.body? m = some body →
    ∀ i ∈ body, exact.HasInstruction i

/-- A program that never mentions the placeholder speaks of exact types and methods only. -/
theorem Program.Exact.covers {P : Program} (hP : P.Exact) : exact.toVocabulary.Covers P := by
  have hoverrides := hP.overrides
  rw [NodeVocabulary.toVocabulary_exact]
  apply Alphabet.Describes.covers
  constructor
  case base => exact fun r hr b hb => Ty.over_exact_iff.2 (hP.base r hr b hb)
  case interfaces => exact fun r hr i hi => Ty.over_exact_iff.2 (hP.interfaces r hr i hi)
  case overrides =>
    rw [← NodeVocabulary.toVocabulary_exact]
    exact hP.overrides
  all_goals intros; trivial

namespace Setting

variable {S : Setting} {roots : List Root} {g : NodeGraph}

/-- A slot keeps the arguments of a call as they are. -/
theorem yields_exact_slotFor (hP : S.program.Exact) {m : Method} (hm : m.hasCanon = false) :
    Yields exact.slot (S.slotFor m) := by
  refine .bind (hP.covers.answers.slotOf hm) fun slot hslot => ?_
  split
  · exact .pure (hP.covers.methodArgs hslot)
  · split
    · next hempty =>
      refine .lift fun a ha => ?_
      rw [Method.value_canonicalForm] at ha
      simp [Method.canonical, List.isEmpty_iff.1 hempty] at ha
    · refine .after fun definition => ?_
      cases happly : definition.apply slot.args with
      | error fault => exact .refuse
      | ok applied =>
        refine .lift ?_
        rw [value_needMethod]
        unfold Method.apply at happly
        split at happly
        · cases happly
        · cases happly
          show ∀ a ∈ slot.args, a.hasCanon = false
          exact hP.covers.methodArgs hslot

/-- If the program never mentions the placeholder, exact nodes lead to exact types and methods. -/
theorem covers_exact (hP : S.program.Exact) : exact.Covers S where
  toCovers := hP.covers
  objectType ht := ht
  typeObject ht := ht
  arrayOf ht := ht
  element ht := ht
  pointerTarget ht := ht
  byRefTarget ht := ht
  typeDefinition ht := Ty.over_exact_iff.1 (Ty.over_exact_iff.2 ht).definition
  fieldOwner _ := rfl
  bodies := hP.bodies
  ownCode _ := trivial
  ownShadow hm _ := hm
  shadowMethod hm := hm
  sharedCode _ := trivial
  slotFor := yields_exact_slotFor hP
  importable {m} _ := by
    cases hm : m.hasCanon with
    | false => exact .inl hm
    | true => exact .inr ⟨rfl, fun n hn => hasNode_exact_iff.2 fun _ => hn⟩

/-! ## What a search hands back -/

/-- The search for overrides of a generic slot on the objects of a type finds nothing but the slot. -/
structure HandsBack (S : Setting) (v : Method) (c : Ty) : Prop where
  concrete : c.isAbstract = false
  derives : (S.program.derivesUpToCanon c v.owner).value = true
  resolve : outcome (S.program.resolve v c) = .ok v
  code : v.isAbstract = false

/-- What a search finds over the objects of a type is the code of what the slot leads to on it. -/
theorem genericOverride_eq_ok {v : Method} {c : Ty} {found : List (Edge Node)}
    (hfound : outcome (S.genericOverride v c) = .ok found) :
    found = [] ∨ c.isAbstract = false ∧ (S.program.derivesUpToCanon c v.owner).value = true ∧
      ∃ target, outcome (S.program.resolve v c) = .ok target ∧ target.isAbstract = false ∧
        found = [⟨(S.codeNode target).value, "generic virtual method override"⟩] := by
  by_cases hconcrete : c.isAbstract = false
  · by_cases hderives : (S.program.derivesUpToCanon c v.owner).value = true
    · rw [outcome_genericOverride hconcrete hderives] at hfound
      obtain ⟨target, htarget, hfound⟩ := bind_eq_ok.1 hfound
      split at hfound
      · cases hfound
        exact .inl rfl
      · next hcode =>
        cases hfound
        exact .inr ⟨hconcrete, hderives, target, htarget, Bool.eq_false_iff.2 hcode, rfl⟩
    · simp only [genericOverride, hconcrete, hderives, Bool.false_eq_true, if_false, Bool.not_false,
        if_true, outcome_bind, outcome_liftM, ok_bind, outcome_pure] at hfound
      cases hfound
      exact .inl rfl
  · rw [genericOverride, if_pos (by simpa using hconcrete)] at hfound
    cases hfound
    exact .inl rfl

/-- What a search finds is exact, unless it hands back a slot that mentions the placeholder and is
not the code that it runs on. -/
theorem yields_exact_genericOverride (hP : S.program.Exact) {v : Method} {c : Ty}
    (hv : exact.slot v) (hc : c.hasCanon = false)
    (hback : S.HandsBack v c → v.hasCanon = true → (S.codeOwner v).value = v) :
    Yields (LeadTo exact.HasNode) (S.genericOverride v c) := by
  intro found hfound
  rcases genericOverride_eq_ok hfound with rfl |
    ⟨hconcrete, hderives, target, htarget, hcode, rfl⟩
  · exact .nil
  · refine .singleton ?_ _
    have hargs : ∀ {m : Method}, m.hasCanon = false → { m with args := v.args }.hasCanon = false := by
      intro m hm
      simp only [Method.hasCanon, Bool.or_eq_false_iff] at hm ⊢
      exact ⟨hm.1, List.any_eq_false.2 fun a ha => by simp [hv a ha]⟩
    rcases hP.covers.answers.resolve_or_eq hargs hc target htarget with hexact | rfl
    · exact (covers_exact hP).codeNode hexact
    · rw [value_codeNode]
      by_cases howner : (S.codeOwner target).value = target
      · rw [if_pos howner]
        exact trivial
      · rw [if_neg howner]
        show target.hasCanon = false
        by_contra hcanon
        exact howner (hback ⟨hconcrete, hderives, htarget, hcode⟩ (by simpa using hcanon))

namespace FixedPoint

/-- Of what a marking marks, everything but code is exact if and only if every slot that mentions the
placeholder and is handed back by a search is the code that it runs on. -/
theorem exact_iff (hg : S.FixedPoint roots g) (hP : S.program.Exact)
    (hroots : ∀ r ∈ roots, exact.HasRoot r.kind) :
    (∀ n, g.isMarked n = true → n.kind ≠ .code → n.hasCanon = false) ↔
      ∀ v c, g.isMarked (.slot v) = true → v.args ≠ [] → g.isMarked (.constructed c) = true →
        S.HandsBack v c → v.hasCanon = true → (S.codeOwner v).value = v := by
  constructor
  · intro hexact v c hv hargs hc hback hcanon
    obtain ⟨target, htarget, hmarked⟩ :=
      hg.exists_target_of_slot hv hargs hc hback.concrete hback.derives
    cases hback.resolve.symm.trans htarget
    have hnode := hexact _ (hmarked hback.code)
    rw [value_codeNode] at hnode
    by_contra howner
    rw [if_neg howner] at hnode
    have hshadow : v.hasCanon = false := hnode nofun
    rw [hcanon] at hshadow
    cases hshadow
  · intro hback n hn
    refine hasNode_exact_iff.1 (hg.hasNode (covers_exact hP) hroots ?_ hn)
    intro v c hv hvslot hc hcexact hargs
    exact yields_exact_genericOverride hP hvslot hcexact (hback v c hv hargs hc)

end FixedPoint

end Setting

/-- Of what a scan marks, everything but code is exact, and so are the types of which objects exist,
if and only if every slot that mentions the placeholder and is handed back by a search is the code
that it runs on. -/
theorem Program.scan_exact_iff {P : Program} {fuel : Nat} {options : Options} {roots : List Root}
    {cancelled : Option Bool} {scan : Scan}
    (hscan : outcome (P.scan fuel options roots cancelled) = .ok (some scan)) (hP : P.Exact)
    (hroots : ∀ r ∈ roots, exact.HasRoot r.kind) :
    ((∀ n, scan.graph.isMarked n = true → n.kind ≠ .code → n.hasCanon = false) ∧
        ∀ t ∈ scan.constructedTypes, t.hasCanon = false) ↔
      ∀ v c, scan.graph.isMarked (.slot v) = true → v.args ≠ [] →
        scan.graph.isMarked (.constructed c) = true →
        Setting.HandsBack { program := P, options } v c → v.hasCanon = true →
        (Setting.codeOwner { program := P, options } v).value = v := by
  rw [← (scan_eq_ok hscan).2.exact_iff hP hroots]
  refine ⟨fun h => h.1, fun h => ⟨h, fun t ht => ?_⟩⟩
  exact h (.constructed t) (Scan.mem_constructedTypes.1 ht) nofun

/-! ### Feeding sinks -/

namespace Sinking

/-- The program of sinks never mentions the placeholder. -/
theorem exact_program : program.Exact where
  base := by decide +kernel
  interfaces := by decide +kernel
  overrides := by decide +kernel
  bodies := by
    intro m body hbody i hi
    simp only [program, Program.body?_setBody, Program.body?_withTypes] at hbody
    split at hbody
    · cases hbody
      rw [List.mem_singleton.1 hi]
      exact ⟨rfl, fun t ht => by cases ht⟩
    · split at hbody
      · cases hbody
        rw [List.mem_singleton.1 hi]
        trivial
      · cases hbody

/-- The roots for feeding a drain do not mention the placeholder. -/
theorem hasRoot_drainRoots : ∀ r ∈ drainRoots, exact.HasRoot r.kind := by
  simp [drainRoots, NodeVocabulary.HasRoot, exact, Method.hasCanon, feed, MethodDecl.ofName,
    MethodDecl.method, Ty.hasCanon]

/-- On a drain a slot that accepts something finds nothing but itself. -/
theorem handsBack_drain {bodies : Std.HashMap Method Body} (args : List Ty) :
    Setting.HandsBack { program := running bodies } ⟨accept, sinkOf .canon, args⟩ (.decl drain) where
  concrete := rfl
  derives := derivesUpToCanon_drain
  resolve := resolve_drain _ _
  code := rfl

/-- A drain hands back what accepts a number, which is the code that it runs on. -/
theorem scan_exact_iff_drain : ∃ fuel scan,
    outcome (program.scan fuel {} drainRoots none) = .ok (some scan) ∧ program.Exact ∧
      (∀ r ∈ drainRoots, exact.HasRoot r.kind) ∧
      scan.graph.isMarked (.slot sharedAccept) = true ∧
      setting.HandsBack sharedAccept (.decl drain) ∧ sharedAccept.hasCanon = true ∧
      (∀ n, scan.graph.isMarked n = true → n.kind ≠ .code → n.hasCanon = false) ∧
      ∀ t ∈ scan.constructedTypes, t.hasCanon = false := by
  obtain ⟨fuel, g, hg, hfeed, -, hnodes⟩ := exists_analyze_drain
  have hscan := Program.scan_of_analyze hg
  have hslot : g.isMarked (.slot sharedAccept) = true :=
    (Setting.fixedPoint_of_analyze hg).edge hfeed expand_feed _ (List.mem_singleton_self _)
  refine ⟨fuel, ⟨g, drainRoots⟩, hscan, exact_program, hasRoot_drainRoots, hslot,
    handsBack_drain _, rfl, ?_⟩
  apply (Program.scan_exact_iff hscan exact_program hasRoot_drainRoots).2
  intro v c hv _ _ _ _
  have hmem := hnodes _ hv
  simp only [drainNodes, List.mem_cons, Node.slot.injEq, List.not_mem_nil, or_false, reduceCtorEq,
    false_or] at hmem
  have hcanonical : sharedAccept.canonical = sharedAccept := rfl
  rw [hmem, Setting.value_codeOwner, hcanonical, ite_self]

/-- A sink for texts accepts a text. -/
def acceptText : Method :=
  ⟨accept, sinkOf (.ofWellKnown .string), [.ofWellKnown .string]⟩

/-- The slot of this, which is not the code that it runs on. -/
def slotText : Method :=
  ⟨accept, sinkOf .canon, [.ofWellKnown .string]⟩

/-- The same program, in which a sink is fed a text. -/
def textProgram : Program :=
  program.setBody feed.method [.callvirt (.known acceptText) none]

abbrev textSetting : Setting := { program := textProgram }

/-- The program in which a sink is fed a text never mentions the placeholder. -/
theorem exact_textProgram : textProgram.Exact where
  base := exact_program.base
  interfaces := exact_program.interfaces
  overrides := exact_program.overrides
  bodies := by
    intro m body hbody i hi
    rw [textProgram, Program.body?_setBody] at hbody
    split at hbody
    · cases hbody
      rw [List.mem_singleton.1 hi]
      exact ⟨rfl, fun t ht => by cases ht⟩
    · exact exact_program.bodies hbody i hi

/-- To feed is to let a sink accept a text. -/
theorem body?_feedText :
    textProgram.body? feed.method = some [.callvirt (.known acceptText) none] := by
  simp [textProgram, feed, MethodDecl.ofName]

/-- A sink does nothing with what it accepts. -/
theorem body?_acceptText {m : Method} (hm : m.decl = accept) :
    textProgram.body? m = some [.ret] := by
  have htypical : m.typical = accept.method := by rw [Method.typical, hm]
  simp [textProgram, program, htypical, feed, accept, MethodDecl.ofName]

/-- The slot of accepting a text is seen on the canonical form of sinks. -/
theorem slotFor_acceptText : outcome (textSetting.slotFor acceptText) = .ok slotText := by
  have hslot : outcome (textSetting.program.slotOf acceptText.definition) =
      .ok acceptText.definition := Program.IntroducesSlot.slotOf (.inr (.inl rfl)) rfl
  rw [Setting.outcome_slotFor_generic hslot rfl (by decide) (by simp [acceptText])]
  rfl

/-- Feeding a text needs the slot and nothing else. -/
theorem expand_feedText : outcome (textSetting.expand (.code feed.method)) =
    .ok { edges := [⟨.slot slotText, "callvirt"⟩] } :=
  textSetting.outcome_expand_code_singleton rfl rfl body?_feedText
    (Importer.outcome_callvirt_of_slot (Importer.outcome_calledMethod_known _ rfl) rfl rfl 0 rfl
      slotFor_acceptText)

/-- The method on the canonical form of sinks runs on shared code. -/
theorem expand_slotText : outcome (textSetting.expand (.shadow slotText)) =
    .ok { edges := [⟨.code slotText.canonical, "shared code"⟩] } := by
  rw [textSetting.outcome_expand_shadow, body?_acceptText rfl, textSetting.value_codeOwner]
  rfl

/-- The shared code needs nothing. -/
theorem expand_sharedText : outcome (textSetting.expand (.code slotText.canonical)) = .ok {} := by
  rw [textSetting.outcome_expand_code, body?_acceptText rfl]
  rfl

/-- For the method on the canonical form of sinks, it is marked that it runs on shared code. -/
theorem codeNode_slotText : (textSetting.codeNode slotText).value = .shadow slotText := by
  have hne : slotText.canonical ≠ slotText := by
    intro h
    have hargs : [Ty.canon] = [.ofWellKnown .string] := congrArg Method.args h
    simp [Ty.ofWellKnown] at hargs
  rw [Setting.value_codeNode, Setting.value_codeOwner]
  exact if_neg hne

/-- On a drain, the search for overrides finds the slot. -/
theorem genericOverride_text : outcome (textSetting.genericOverride slotText (.decl drain)) =
    .ok [⟨.shadow slotText, "generic virtual method override"⟩] := by
  rw [← codeNode_slotText]
  exact genericOverride_running _

/-- What is needed to feed a drain with a text. -/
def textNodes : List Node :=
  [.code feed.method, .constructed (.decl drain), .slot slotText, .shadow slotText,
    .code slotText.canonical, .typeData (.decl drain), .typeData .object]

/-- Feeding a drain with a text needs what is listed. -/
theorem selfContained_text : textSetting.SelfContained textNodes := by
  have hdrain := textSetting.outcome_expand_typeData (t := .decl drain) (some .object) rfl rfl rfl
  have hobject := textSetting.outcome_expand_typeData (t := .object) none rfl rfl rfl
  refine .of_slot (.cons expand_feedText <| .cons expand_drain <| .cons rfl <|
    .cons expand_slotText <| .cons expand_sharedText <| .cons hdrain <| .cons hobject .nil)
    ?_ ?_ ?_ genericOverride_text ?_ <;> simp [textNodes]

/-- Feeding a drain, which is a sink for texts, with a text marks a method that mentions the
placeholder: the search for what accepts the text hands back the slot, and the slot counts as a
method of its own that runs on shared code. -/
theorem exists_scan_marking_placeholder : ∃ fuel scan,
    outcome (textProgram.scan fuel {} drainRoots none) = .ok (some scan) ∧ textProgram.Exact ∧
      (∀ r ∈ drainRoots, exact.HasRoot r.kind) ∧
      scan.graph.isMarked (.shadow slotText) = true ∧ slotText.hasCanon = true := by
  obtain ⟨fuel, g, hg, hroots, -⟩ := selfContained_text.exists_analyze drainRoots
    (.cons (textSetting.rootNodes_method rfl rfl) (.cons rfl .nil)) (by simp [textNodes])
  have hfixed := Setting.fixedPoint_of_analyze hg
  have hslot : g.isMarked (.slot slotText) = true :=
    hfixed.edge (hroots _ (by simp)) expand_feedText _ (List.mem_singleton_self _)
  obtain ⟨target, htarget, hmarked⟩ := hfixed.exists_target_of_slot hslot (by simp [slotText])
    (hroots _ (by simp)) rfl derivesUpToCanon_drain
  have hresolve : outcome (textProgram.resolve slotText (.decl drain)) = .ok slotText :=
    resolve_drain _ _
  cases hresolve.symm.trans htarget
  have hshadow := hmarked rfl
  rw [codeNode_slotText] at hshadow
  exact ⟨fuel, ⟨g, drainRoots⟩, Program.scan_of_analyze hg, exact_textProgram, hasRoot_drainRoots,
    hshadow, rfl⟩

end Sinking

end AheadOfTime
