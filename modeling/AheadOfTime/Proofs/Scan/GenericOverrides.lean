import AheadOfTime.Proofs.Scan.Overrides

/-!
# Overrides of generic virtual methods

A generic virtual method has no fixed place in a table.  A call of it marks a slot that keeps the
arguments of the call exact and has the owner in canonical form, and this slot is shown every type
of which objects exist.  What the slot leads to on a type is what the called method leads to, as long
as passing to the canonical form changes nothing about the slot.  The one method that is told apart
from its canonical form is an interface method with a body of its own that no type implements: then
only the code that it shares with others is marked.
-/

set_option autoImplicit false

namespace AheadOfTime

open Marking

namespace Program

variable (P : Program)

/-- Objects of type `c` answer calls of the generic method `d`.  The slot of a class method was
introduced on a base type of `c`, by a generic method, and is the same slot when that method is seen
on the canonical form of its owner.  An interface method introduces its own slot, and `c` implements
the interface. -/
def AnswersGenericCall (P : Program) (d : Method) (c : Ty) : Prop :=
  (d.owner.isInterface = false ∧ ∃ s s', outcome (P.slotOf d.definition) = .ok s ∧
    P.IntroducesSlot s ∧ 0 < s.decl.signature.arity ∧ s.owner ∈ (P.baseChain c).value ∧
    outcome (P.slotOf s.canonical) = .ok s' ∧ s'.decl = s.decl) ∨
  (d.owner.isInterface = true ∧ P.IntroducesSlot d.definition ∧ 0 < d.decl.signature.arity ∧
    d.owner ∈ (P.allInterfaces c).value)

end Program

namespace Setting

variable {S : Setting}

/-! ## The slot of a generic virtual method -/

/-- With shared generics, the code of a method is that of its canonical form. -/
theorem value_codeOwner (S : Setting) (m : Method) :
    (S.codeOwner m).value = if S.options.sharedGenerics then m.canonical else m := by
  unfold codeOwner
  split <;> simp

/-- A generic slot is applied to the arguments of the call.  Its owner is in canonical form if code
is shared. -/
theorem outcome_slotFor_generic {d s : Method}
    (hs : outcome (S.program.slotOf d.definition) = .ok s) (hargs : s.args = [])
    (harity : 0 < s.decl.signature.arity) (hd : d.args ≠ []) :
    outcome (S.slotFor d) =
      if S.options.sharedGenerics then
        match s.canonical.apply d.args with
        | .ok applied => .ok applied
        | .error fault => .error fault.report
      else .ok { s with args := d.args } := by
  have hgeneric : s.isGenericDefinition = true := by
    simp [Method.isGenericDefinition, hargs, harity]
  have hslot : s.withArgs d.args = { s with args := d.args } := by
    simp [Method.withArgs, hgeneric, hd]
  have hdef : ({ s with args := d.args } : Method).definition = s :=
    Method.definition_of_args_eq_nil hargs
  unfold slotFor
  rw [outcome_bind, S.program.outcome_slotOf_definition, hs, ok_bind, ok_bind, hslot]
  cases S.options.sharedGenerics with
  | false => rfl
  | true =>
    simp only [Bool.not_true, Bool.false_eq_true, if_false, List.isEmpty_iff, hd, hdef,
      outcome_bind, outcome_liftM, Method.value_canonicalForm, ok_bind, if_true]
    cases s.canonical.apply d.args with
    | error fault => rfl
    | ok applied => simp

/-- A call of a generic method looks for the slot where the slot's code is, with the arguments of
the call. -/
theorem slotFor_of_generic {d s v : Method}
    (hs : outcome (S.program.slotOf d.definition) = .ok s) (hargs : s.args = [])
    (harity : 0 < s.decl.signature.arity) (hd : d.args ≠ [])
    (hv : outcome (S.slotFor d) = .ok v) :
    v = { (S.codeOwner s).value with args := d.args } := by
  rw [outcome_slotFor_generic hs hargs harity hd] at hv
  rw [S.value_codeOwner]
  cases hshared : S.options.sharedGenerics with
  | false =>
    rw [hshared] at hv
    cases hv
    rfl
  | true =>
    rw [hshared, if_pos rfl] at hv
    unfold Method.apply at hv
    split at hv
    · next applied happlied =>
      split at happlied
      · cases happlied
      · cases happlied
        cases hv
        rfl
    · cases hv

/-- The method whose code is shared differs at most in the canonical form of the owner. -/
theorem codeOwner_of_args_eq_nil (S : Setting) {s : Method} (hargs : s.args = []) :
    (S.codeOwner s).value.decl = s.decl ∧ (S.codeOwner s).value.args = [] ∧
      (S.codeOwner s).value.owner.canonical = s.owner.canonical := by
  rw [S.value_codeOwner]
  split
  · simp [Method.canonical, hargs]
  · simp [hargs]

variable {roots : List Root} {g : NodeGraph}

/-- On a type below its owner, a generic slot finds the code of what it leads to. -/
theorem outcome_genericOverride {v : Method} {c : Ty} (hconcrete : c.isAbstract = false)
    (hderives : (S.program.derivesUpToCanon c v.owner).value = true) :
    outcome (S.genericOverride v c) = outcome (S.program.resolve v c) >>= fun target =>
      if target.isAbstract then .ok []
      else .ok [⟨(S.codeNode target).value, "generic virtual method override"⟩] := by
  simp only [genericOverride, hconcrete, hderives, Bool.false_eq_true, if_false, Bool.not_true,
    outcome_bind, outcome_liftM, ok_bind, outcome_ite, outcome_pure]

/-- A marked slot with arguments leads to marked code on every type of which objects exist and that
derives from its owner. -/
theorem FixedPoint.exists_target_of_slot (h : S.FixedPoint roots g) {v : Method} {c : Ty}
    (hv : g.isMarked (.slot v) = true) (hargs : v.args ≠ [])
    (hc : g.isMarked (.constructed c) = true) (hconcrete : c.isAbstract = false)
    (hderives : (S.program.derivesUpToCanon c v.owner).value = true) :
    ∃ target, outcome (S.program.resolve v c) = .ok target ∧
      (target.isAbstract = false → g.isMarked (S.codeNode target).value = true) := by
  obtain ⟨found, hfound, hmarked⟩ := h.search hv rfl hc
  rw [S.outcome_search_singleton, if_neg (by simpa using hargs), find,
    outcome_genericOverride hconcrete hderives] at hfound
  obtain ⟨target, htarget, hfound⟩ := bind_eq_ok.1 hfound
  refine ⟨target, htarget, fun hcode => ?_⟩
  rw [hcode, if_neg Bool.false_ne_true, Except.ok.injEq] at hfound
  rw [← hfound] at hmarked
  exact hmarked _ (List.mem_singleton_self _)

/-! ## Calls in bodies -/

/-- What an instruction of the body of a marked node needs is marked. -/
theorem FixedPoint.exists_imported (h : S.FixedPoint roots g) {n : Node} {I : Importer}
    {body : Body} (hn : g.isMarked n = true) (hbody : S.HasBody n I body) {i : Instruction}
    {offset : Nat} (hi : (i, offset) ∈ body.zipIdx) :
    ∃ own, outcome (I.instruction offset i) = .ok own ∧
      ∀ e ∈ own.edges, g.isMarked e.target = true := by
  cases hbody with
  | @code m _ hcode hbody =>
    obtain ⟨x, hx⟩ := h.exists_expansion hn fun m' hm' => by
      cases hm'
      exact .inr (by simp [hbody])
    have hedges := h.edge hn hx
    rw [S.outcome_expand_code, hcode, hbody] at hx
    obtain ⟨-, -, hx⟩ := bind_eq_ok.1 hx
    obtain ⟨imported, himported, hx⟩ := bind_eq_ok.1 hx
    cases hx
    obtain ⟨own, hown, hsub⟩ := S.mem_importBody himported hi
    exact ⟨own, hown, fun e he => hedges e (hsub e he)⟩
  | @shadow m _ hbody =>
    obtain ⟨x, hx⟩ := h.exists_expansion hn fun _ hm => Node.noConfusion hm
    have hedges := h.edge hn hx
    rw [S.outcome_expand_shadow, hbody] at hx
    obtain ⟨-, -, hx⟩ := bind_eq_ok.1 hx
    obtain ⟨imported, himported, hx⟩ := bind_eq_ok.1 hx
    cases hx
    obtain ⟨own, hown, hsub⟩ := S.mem_importBody himported hi
    exact ⟨own, hown, fun e he => hedges e (List.mem_cons_of_mem _ (hsub e he))⟩

/-- The body of a node calls a virtual method through its slot.  Code that is shared leaves calls to
the methods that run on it. -/
def CallsThroughSlot (S : Setting) (n : Node) (d : Method) : Prop :=
  ∃ I body operand receiver r, S.HasBody n I body ∧ I.skipsCanon = false ∧
    .callvirt operand receiver ∈ body ∧ outcome (I.calledMethod operand) = .ok d ∧
    outcome (receiver.mapM I.type) = .ok r ∧ d.isVirtual = true ∧
    outcome (I.onlyTarget? d r) = .ok none

/-- If the body of a marked node calls a method through its slot, the slot is marked. -/
theorem FixedPoint.exists_slot_of_call (h : S.FixedPoint roots g) {n : Node} {d : Method}
    (hn : g.isMarked n = true) (hcall : S.CallsThroughSlot n d) :
    ∃ v, outcome (S.slotFor d) = .ok v ∧ g.isMarked (.slot v) = true := by
  obtain ⟨I, body, operand, receiver, r, hbody, hexact, hi, hoperand, hreceiver, hvirtual, honly⟩ :=
    hcall
  obtain ⟨offset, hoffset⟩ := List.getElem?_of_mem hi
  obtain ⟨own, hown, hmarked⟩ :=
    h.exists_imported hn hbody (List.mem_zipIdx_iff_getElem?.2 hoffset)
  rw [I.outcome_callvirt, hoperand, ok_bind, hreceiver, ok_bind,
    I.outcome_virtualCall _ _ _ _ hvirtual, honly, ok_bind, hbody.setting_eq] at hown
  obtain ⟨v, hv, hown⟩ := bind_eq_ok.1 hown
  cases hown
  refine ⟨v, hv, hmarked ⟨.slot v, "callvirt"⟩ ?_⟩
  simp [Importer.edge, hexact]

/-! ## What a generic call leads to -/

/-- A generic method of a class that is called through its slot leads to marked code on every type of
which objects exist and below which the slot was introduced. -/
theorem FixedPoint.exists_generic_target_of_class (h : S.FixedPoint roots g)
    (hP : S.program.WellFormed) (hbases : S.program.HasClassBases) {d s s' v : Method} {c : Ty}
    (hd : S.program.Declares d) (hvirtual : d.isVirtual = true) (hargs : d.args ≠ [])
    (hclass : d.owner.isInterface = false)
    (hs : outcome (S.program.slotOf d.definition) = .ok s) (hintro : S.program.IntroducesSlot s)
    (harity : 0 < s.decl.signature.arity)
    (howner : s.owner ∈ S.program.chain S.program.walkLimit c)
    (hs' : outcome (S.program.slotOf s.canonical) = .ok s') (hdecl : s'.decl = s.decl)
    (hv : outcome (S.slotFor d) = .ok v) (hslot : g.isMarked (.slot v) = true)
    (hc : g.isMarked (.constructed c) = true) (hconcrete : c.isAbstract = false) :
    ∃ target, outcome (S.program.resolve d c) = .ok target ∧
      (target.isAbstract = false → g.isMarked (S.codeNode target).value = true) := by
  have hddef : S.program.IsVirtualDefinition d.definition := ⟨hvirtual, hd.definition, rfl⟩
  have hsdef : S.program.IsVirtualDefinition s := hP.slotOf hddef hs
  have hveq := slotFor_of_generic hs hsdef.noArgs harity hargs hv
  obtain ⟨hbdecl, hbargs, hbowner⟩ := S.codeOwner_of_args_eq_nil hsdef.noArgs
  have hvdef : v.definition = (S.codeOwner s).value := by
    rw [hveq]
    exact Method.definition_of_args_eq_nil hbargs
  have hvowner : v.owner.canonical = s.owner.canonical := by
    rw [hveq]
    exact hbowner
  have hvclass : v.owner.isInterface = false := by
    rw [← Ty.isInterface_canonical, hvowner, Ty.isInterface_canonical]
    exact hbases.isInterface_of_mem_chain (Ty.isInterface_of_not_isAbstract hconcrete) howner
  have hderives : (S.program.derivesUpToCanon c v.owner).value = true :=
    S.program.derivesUpToCanon_of_mem_chain hvclass howner hvowner.symm
  have hvslot : ∃ t, outcome (S.program.slotOf v.definition) = .ok t ∧ t.decl = s.decl := by
    rw [hvdef, S.value_codeOwner]
    split
    · exact ⟨s', hs', hdecl⟩
    · exact ⟨s, hintro.slotOf hsdef.noArgs, rfl⟩
  obtain ⟨t, ht, htdecl⟩ := hvslot
  -- the slot keeps the arguments of the call, and its canonical form has the same slot
  have hresolve : outcome (S.program.resolve d c) = outcome (S.program.resolve v c) := by
    rw [S.program.outcome_resolve_of_class hclass, S.program.outcome_resolve_of_class hvclass]
    refine Program.classTarget_eq_of_slot hvirtual ?_ hs ht htdecl.symm ?_
      ⟨s.owner, howner, hintro.slotFiller?_owner hsdef⟩
    · rw [hveq, Method.isVirtual, Method.flags, hbdecl]
      exact hsdef.virtual
    · rw [hveq]
  rw [hresolve]
  exact h.exists_target_of_slot hslot (by rw [hveq]; exact hargs) hc hconcrete hderives

/-- A generic method of an interface that is called through its slot leads, on every type of which
objects exist and that implements the interface, to a method whose code is marked.  The method itself
is marked too, unless it is the called one, with a body of its own, and has an owner that is not in
canonical form. -/
theorem FixedPoint.exists_generic_target_of_interface (h : S.FixedPoint roots g) {d v : Method}
    {c : Ty} (hargs : d.args ≠ []) (hinterface : d.owner.isInterface = true)
    (hintro : S.program.IntroducesSlot d.definition) (harity : 0 < d.decl.signature.arity)
    (himplements : d.owner ∈ (S.program.allInterfaces c).value)
    (hv : outcome (S.slotFor d) = .ok v) (hslot : g.isMarked (.slot v) = true)
    (hc : g.isMarked (.constructed c) = true) (hconcrete : c.isAbstract = false) :
    ∃ target, outcome (S.program.resolve d c) = .ok target ∧ (target.isAbstract = false →
      g.isMarked (.code (S.codeOwner target).value) = true ∧
      ((target = d → d.owner.canonical = d.owner) →
        g.isMarked (S.codeNode target).value = true)) := by
  have hveq := slotFor_of_generic (hintro.slotOf rfl) rfl harity hargs hv
  obtain ⟨hbdecl, hbargs, hbowner⟩ := S.codeOwner_of_args_eq_nil (s := d.definition) rfl
  have hvargs : v.args = d.args := by rw [hveq]
  have hvdecl : v.decl = d.decl := by
    rw [hveq]
    exact hbdecl
  have hvowner : v.owner.canonical = d.owner.canonical := by
    rw [hveq]
    exact hbowner
  have hvinterface : v.owner.isInterface = true := by
    rwa [← Ty.isInterface_canonical, hvowner, Ty.isInterface_canonical]
  have hvdef : v.definition.canonical = d.definition.canonical := by
    simp [Method.definition, Method.canonical, hvdecl, hvowner]
  obtain ⟨target, htarget, hmarked⟩ := h.exists_target_of_slot hslot (by rwa [hvargs]) hc hconcrete
    (S.program.derivesUpToCanon_of_mem_interfaces hvinterface himplements hvowner.symm)
  rcases S.program.resolve_congr_of_interface hvinterface hinterface hvargs hvdef htarget with
    hresolve | ⟨rfl, hresolve⟩
  · exact ⟨target, hresolve, fun hcode => ⟨h.isMarked_codeOwner (hmarked hcode), fun _ =>
      hmarked hcode⟩⟩
  · refine ⟨d, hresolve, fun hcode => ?_⟩
    have htcode : target.isAbstract = false := by
      rw [Method.isAbstract, Method.flags, hvdecl]
      exact hcode
    -- the called method and the slot share their code
    have howner : (S.codeOwner target).value = (S.codeOwner d).value := by
      rw [S.value_codeOwner, S.value_codeOwner]
      split
      · simp [Method.canonical, hvdecl, hvowner, hvargs]
      · next hshared =>
        rw [hveq, S.value_codeOwner, if_neg hshared]
        rfl
    refine ⟨?_, fun hexact => ?_⟩
    · rw [← howner]
      exact h.isMarked_codeOwner (hmarked htcode)
    · have htarget : target = d := by
        rw [hveq, S.value_codeOwner]
        split
        · simp [Method.canonical, Method.definition, hexact rfl]
        · rfl
      rw [← htarget]
      exact hmarked htcode

/-- The slot of a generic method that is called through leads to marked code on every type of which
objects exist and that answers the call. -/
theorem FixedPoint.exists_target_of_answersGenericCall (h : S.FixedPoint roots g)
    (hP : S.program.WellFormed) (hbases : S.program.HasClassBases) {d v : Method} {c : Ty}
    (hd : S.program.Declares d)
    (hvirtual : d.isVirtual = true) (hargs : d.args ≠ [])
    (hv : outcome (S.slotFor d) = .ok v) (hslot : g.isMarked (.slot v) = true)
    (hc : g.isMarked (.constructed c) = true) (hconcrete : c.isAbstract = false)
    (hanswers : S.program.AnswersGenericCall d c) :
    ∃ target, outcome (S.program.resolve d c) = .ok target ∧ (target.isAbstract = false →
      g.isMarked (.code (S.codeOwner target).value) = true ∧
      ((d.owner.isInterface = true → target = d → d.owner.canonical = d.owner) →
        g.isMarked (S.codeNode target).value = true)) := by
  rcases hanswers with ⟨hclass, s, s', hs, hintro, harity, howner, hs', hdecl⟩ |
    ⟨hinterface, hintro, harity, himplements⟩
  · rw [Program.value_baseChain] at howner
    obtain ⟨target, htarget, hmarked⟩ := h.exists_generic_target_of_class hP hbases hd hvirtual
      hargs hclass hs hintro harity howner hs' hdecl hv hslot hc hconcrete
    exact ⟨target, htarget, fun hcode =>
      ⟨h.isMarked_codeOwner (hmarked hcode), fun _ => hmarked hcode⟩⟩
  · obtain ⟨target, htarget, hmarked⟩ := h.exists_generic_target_of_interface hargs hinterface
      hintro harity himplements hv hslot hc hconcrete
    exact ⟨target, htarget, fun hcode =>
      ⟨(hmarked hcode).1, fun hexact => (hmarked hcode).2 (hexact hinterface)⟩⟩

end Setting

namespace Program

variable {P : Program}

/-- A scan misses no override of a generic method that some marked body calls: on
every type of which objects exist and that answers the call, the code is marked that the call ends up
in.  So is the method that runs, with the exact types that it needs, unless it is the called
interface method itself and its owner is not in canonical form. -/
theorem scan_marks_generic_override {fuel : Nat} {options : Options} {roots : List Root}
    {cancelled : Option Bool} {scan : Scan}
    (hscan : outcome (P.scan fuel options roots cancelled) = .ok (some scan))
    (hP : P.WellFormed) (hbases : P.HasClassBases) {n : Node} {d : Method} {c : Ty}
    (hn : scan.graph.isMarked n = true)
    (hcall : Setting.CallsThroughSlot { program := P, options } n d) (hd : P.Declares d)
    (hargs : d.args ≠ []) (hc : scan.graph.isMarked (.constructed c) = true)
    (hconcrete : c.isAbstract = false) (hanswers : P.AnswersGenericCall d c) :
    ∃ target, outcome (P.resolve d c) = .ok target ∧ (target.isAbstract = false →
      scan.graph.isMarked (.code (Setting.codeOwner { program := P, options } target).value) =
        true ∧
      ((d.owner.isInterface = true → target = d → d.owner.canonical = d.owner) →
        scan.graph.isMarked (Setting.codeNode { program := P, options } target).value = true)) := by
  have hfixed := (scan_eq_ok hscan).2
  obtain ⟨v, hv, hslot⟩ := hfixed.exists_slot_of_call hn hcall
  have hvirtual : d.isVirtual = true := by
    obtain ⟨_, _, _, _, _, _, _, _, _, _, hvirtual, _⟩ := hcall
    exact hvirtual
  exact hfixed.exists_target_of_answersGenericCall hP hbases hd hvirtual hargs hv hslot hc hconcrete
    hanswers

end Program

namespace Converting

/-- What a decoder runs to convert to numbers. -/
def decodeInt32 : Method :=
  { decode.method with args := [.ofWellKnown .int32] }

/-- To call for a conversion is to call a method that converts to numbers. -/
theorem body?_callConvert :
    program.body? callConvert.method = some [.callvirt (.known toInt32) none] := by
  simp [program, callConvert, MethodDecl.ofName]

/-- Decoding does nothing. -/
theorem body?_decodeInt32 : program.body? decodeInt32 = some [.ret] := by
  have htypical : decodeInt32.typical = decode.method := rfl
  simp [program, htypical, callConvert, callRead, decode, MethodDecl.ofName]

/-- Decoding occupies the slot of converting. -/
theorem slotOf_decode : outcome (program.slotOf decode.method) = .ok convert.method := by
  have hmethods : program.methods convert.method.owner = [convert.method] := rfl
  have hvirtual : convert.method.isVirtual = true := rfl
  have hsame : convert.method.sameNameAndSignature decode.method = true :=
    MethodDecl.sameNameAndSignature_method rfl rfl
  refine introducesSlot_convert.slotOf_overriding rfl rfl rfl ?_ (by decide)
  refine Program.overridden?_of_base (by decide) rfl rfl ?_
  rw [hmethods]
  simp [hvirtual, hsame]

/-- On a decoder, converting to numbers leads to decoding. -/
theorem resolve_decoder :
    outcome (program.resolve toInt32 (.decl decoder)) = .ok decodeInt32 := by
  have hfiller : outcome (program.slotFiller? convert.method (.decl decoder)) =
      .ok (some decode.method) := Program.slotFiller?_of_methods rfl rfl rfl rfl slotOf_decode
  rw [program.outcome_resolve_of_class rfl,
    Program.classTarget_of_slotFiller? (by decide) rfl slotOf_convert hfiller]
  rfl

/-- The slot of converting to numbers is itself. -/
theorem slotFor_toInt32 : outcome (setting.slotFor toInt32) = .ok toInt32 := by
  have hslot : outcome (setting.program.slotOf toInt32.definition) = .ok convert.method :=
    slotOf_convert
  rw [Setting.outcome_slotFor_generic hslot rfl (by decide) (by simp [toInt32])]
  rfl

/-- What the call refers to is the method that converts to numbers. -/
theorem calledMethod_toInt32 : outcome ((setting.importer callConvert.method true).calledMethod
    (.known toInt32)) = .ok toInt32 :=
  Importer.outcome_calledMethod_known _ rfl

/-- Calling for a conversion needs the slot and nothing else. -/
theorem expand_callConvert : outcome (setting.expand (.code callConvert.method)) =
    .ok { edges := [⟨.slot toInt32, "callvirt"⟩] } :=
  setting.outcome_expand_code_singleton rfl rfl body?_callConvert
    (Importer.outcome_callvirt_of_slot calledMethod_toInt32 rfl rfl 0 rfl slotFor_toInt32)

/-- Decoding needs nothing. -/
theorem expand_decodeInt32 : outcome (setting.expand (.code decodeInt32)) = .ok {} := by
  rw [setting.outcome_expand_code, body?_decodeInt32]
  rfl

/-- A decoder lists no slot, since converting is generic. -/
theorem slotsOf_decoder : outcome (program.slotsOf (.decl decoder)) = .ok [] := by
  have hchain : program.chain program.walkLimit (.decl decoder) =
      [.decl decoder, .decl source, .object] := rfl
  have hdecoder : program.methods (.decl decoder) = [decode.method] := rfl
  have hsource : program.methods (.decl source) = [convert.method] := rfl
  have hobject : program.methods .object = [] := rfl
  have hgeneric : decode.method.isGenericDefinition = true ∧
      convert.method.isGenericDefinition = true := ⟨rfl, rfl⟩
  simp [Program.slotsOf, hchain, hdecoder, hsource, hobject, hgeneric, List.filterM,
    List.filterAuxM]

/-- Decoders that exist need their type data and nothing else. -/
theorem expand_decoder : outcome (setting.expand (.constructed (.decl decoder))) =
    .ok { edges := [⟨.typeData (.decl decoder), "type handle"⟩] } := by
  have hslots : outcome (setting.slotEdges (.decl decoder)) = .ok [] := by
    simp only [Setting.slotEdges, outcome_bind, slotsOf_decoder]
    rfl
  have hinterfaces : (program.allInterfaces (.decl decoder)).value = [] := rfl
  exact Setting.outcome_expand_constructed rfl rfl rfl hslots hinterfaces (by simp)

/-- On a decoder, the search for overrides finds decoding. -/
theorem genericOverride_decoder : outcome (setting.genericOverride toInt32 (.decl decoder)) =
    .ok [⟨.code decodeInt32, "generic virtual method override"⟩] := by
  have hsource : toInt32.owner ∈ program.chain program.walkLimit (.decl decoder) :=
    List.mem_cons_of_mem _ List.mem_cons_self
  have hderives := program.derivesUpToCanon_of_mem_chain rfl hsource rfl
  have hcode : decodeInt32.isAbstract = false := rfl
  rw [Setting.outcome_genericOverride (S := setting) (v := toInt32) rfl hderives,
    resolve_decoder, ok_bind, hcode, if_neg Bool.false_ne_true,
    setting.value_codeNode_of_canonical (m := decodeInt32) rfl]

/-- Decoders exist, and something is converted to a number. -/
def decoderRoots : List Root :=
  [{ kind := .method callConvert.method, reason := "entry point" },
    { kind := .constructed (.decl decoder), reason := "factory" }]

/-- What is needed to convert something with a decoder. -/
def decoderNodes : List Node :=
  [.code callConvert.method, .constructed (.decl decoder), .slot toInt32, .code decodeInt32,
    .typeData (.decl decoder), .typeData (.decl source), .typeData .object]

/-- Converting something with a decoder needs what is listed. -/
theorem selfContained_decoder : setting.SelfContained decoderNodes := by
  have hdecoder := setting.outcome_expand_typeData (t := .decl decoder) (some (.decl source))
    rfl rfl rfl
  have hsource := setting.outcome_expand_typeData (t := .decl source) (some .object) rfl rfl rfl
  have hobject := setting.outcome_expand_typeData (t := .object) none rfl rfl rfl
  refine .of_slot (.cons expand_callConvert <| .cons expand_decoder <| .cons rfl <|
    .cons expand_decodeInt32 <| .cons hdecoder <| .cons hsource <| .cons hobject .nil)
    ?_ ?_ ?_ genericOverride_decoder ?_ <;> simp [decoderNodes]

/-- If decoders exist and something is converted to a number, decoding to numbers is marked. -/
theorem scan_marks_generic_override_decoder : ∃ fuel scan,
    outcome (program.scan fuel {} decoderRoots none) = .ok (some scan) ∧
      scan.graph.isMarked (.code callConvert.method) = true ∧
      setting.CallsThroughSlot (.code callConvert.method) toInt32 ∧
      scan.graph.isMarked (.constructed (.decl decoder)) = true ∧
      program.AnswersGenericCall toInt32 (.decl decoder) ∧
      ∃ target, outcome (program.resolve toInt32 (.decl decoder)) = .ok target ∧
        (target.isAbstract = false →
          scan.graph.isMarked (.code (setting.codeOwner target).value) = true ∧
          ((toInt32.owner.isInterface = true → target = toInt32 →
              toInt32.owner.canonical = toInt32.owner) →
            scan.graph.isMarked (setting.codeNode target).value = true)) := by
  obtain ⟨fuel, g, hg, hroots, -⟩ := selfContained_decoder.exists_analyze decoderRoots
    (.cons (setting.rootNodes_method rfl rfl) (.cons rfl .nil)) (by simp [decoderNodes])
  have hmarked : g.isMarked (.code callConvert.method) = true := hroots _ (by simp)
  have hobjects : g.isMarked (.constructed (.decl decoder)) = true := hroots _ (by simp)
  have hscan := Program.scan_of_analyze hg
  have hcall : setting.CallsThroughSlot (.code callConvert.method) toInt32 :=
    ⟨_, _, .known toInt32, none, none, .code rfl body?_callConvert, rfl, List.mem_cons_self,
      calledMethod_toInt32, rfl, rfl, rfl⟩
  have hanswers : program.AnswersGenericCall toInt32 (.decl decoder) := by
    refine .inl ⟨rfl, convert.method, convert.method, slotOf_convert, introducesSlot_convert,
      by decide, ?_, slotOf_convert, rfl⟩
    rw [Program.value_baseChain]
    exact List.mem_cons_of_mem _ List.mem_cons_self
  exact ⟨fuel, ⟨g, decoderRoots⟩, hscan, hmarked, hcall, hobjects, hanswers,
    Program.scan_marks_generic_override hscan wellFormed hasClassBases hmarked hcall
      isVirtualDefinition_convert.declared (by simp [toInt32]) hobjects rfl hanswers⟩

end Converting

/-! ### Sinks

A sink accepts anything, and says itself how.  One class of sinks is used; it adds nothing. -/

namespace Sinking

def sink : TypeDecl :=
  { id := 19, space := "App", name := "Sink", flags := { interface := true, abstract := true },
    arity := 1 }

def drain : TypeDecl := { id := 20, space := "App", name := "Drain" }

def host : TypeDecl := { id := 21, space := "App", name := "Host" }

def accept : MethodDecl := .ofName 0 sink "Accept" .ofVirtual 1

def feed : MethodDecl := .ofName 1 host "Feed" { static := true }

def sinkOf (t : Ty) : Ty := .app (.decl sink) t

def types : List TypeRecord :=
  [.ofMethods sink none [accept],
    { TypeRecord.ofMethods drain (some .object) [] with
      interfaces := some [sinkOf (.ofWellKnown .string)] },
    .ofMethods host (some .object) [feed]]

/-- A sink for texts accepts a number. -/
def acceptInt32 : Method :=
  ⟨accept, sinkOf (.ofWellKnown .string), [.ofWellKnown .int32]⟩

/-- The code that this runs on, which stands for the slot too. -/
def sharedAccept : Method :=
  ⟨accept, sinkOf .canon, [.ofWellKnown .int32]⟩

def program : Program :=
  Program.withTypes types
    |>.setBody accept.method [.ret]
    |>.setBody feed.method [.callvirt (.known acceptInt32) none]

abbrev setting : Setting := { program }

/-- To feed is to let a sink accept a number. -/
theorem body?_feed : program.body? feed.method = some [.callvirt (.known acceptInt32) none] := by
  simp [program, feed, MethodDecl.ofName]

/-- A sink does nothing with what it accepts. -/
theorem body?_sharedAccept : program.body? sharedAccept = some [.ret] := by
  have htypical : sharedAccept.typical = accept.method := rfl
  simp [program, htypical, feed, accept, MethodDecl.ofName]

/-- Accepting introduces a slot, on sinks for anything. -/
theorem introducesSlot_accept (t : Ty) : program.IntroducesSlot ⟨accept, sinkOf t, []⟩ :=
  .inr (.inl rfl)

/-- The slot of accepting a number is seen on the canonical form of sinks. -/
theorem slotFor_acceptInt32 : outcome (setting.slotFor acceptInt32) = .ok sharedAccept := by
  have hslot : outcome (setting.program.slotOf acceptInt32.definition) =
      .ok acceptInt32.definition := (introducesSlot_accept _).slotOf rfl
  rw [Setting.outcome_slotFor_generic hslot rfl (by decide) (by simp [acceptInt32])]
  rfl

/-- What the call refers to is the method of sinks for texts. -/
theorem calledMethod_acceptInt32 : outcome ((setting.importer feed.method true).calledMethod
    (.known acceptInt32)) = .ok acceptInt32 :=
  Importer.outcome_calledMethod_known _ rfl

/-- Feeding needs the slot and nothing else. -/
theorem expand_feed : outcome (setting.expand (.code feed.method)) =
    .ok { edges := [⟨.slot sharedAccept, "callvirt"⟩] } :=
  setting.outcome_expand_code_singleton rfl rfl body?_feed
    (Importer.outcome_callvirt_of_slot calledMethod_acceptInt32 rfl rfl 0 rfl slotFor_acceptInt32)

/-- The shared code needs nothing. -/
theorem expand_sharedAccept : outcome (setting.expand (.code sharedAccept)) = .ok {} := by
  rw [setting.outcome_expand_code, body?_sharedAccept]
  rfl

/-! What a drain answers does not depend on what runs. -/

section Drain

variable {bodies : Std.HashMap Method Body}

/-- The same declarations with other bodies. -/
abbrev running (bodies : Std.HashMap Method Body) : Program :=
  { program with bodies }

/-- A drain is a sink for texts. -/
theorem interfaceClosure_drain : ((running bodies).interfaceClosure (.decl drain)).value =
    [sinkOf (.ofWellKnown .string)] := by
  have hlimit : (running bodies).walkLimit = 999999998 + 1 + 1 := rfl
  have hlisted : ((running bodies).interfacesOf (.decl drain)).value =
      [sinkOf (.ofWellKnown .string)] := rfl
  have hnone : ((running bodies).interfacesOf (sinkOf (.ofWellKnown .string))).value = [] := rfl
  have hempty : (Roster.empty : Roster Ty).contains (sinkOf (.ofWellKnown .string)) = false := by
    rw [Bool.eq_false_iff]
    intro h
    cases (Roster.contains_iff_mem _ _).1 h
  rw [Program.interfaceClosure, hlimit]
  simp [Program.closeInterfaces, hlisted, hnone, hempty, Roster.toList_insert_of_not_mem]

/-- A drain has no interfaces but that of sinks for texts. -/
theorem allInterfaces_drain : ((running bodies).allInterfaces (.decl drain)).value =
    [sinkOf (.ofWellKnown .string)] := by
  have hchain : (running bodies).chain (running bodies).walkLimit (.decl drain) =
      [.decl drain, .object] := rfl
  have hobject : ((running bodies).interfaceClosure .object).value = [] := rfl
  simp [Program.allInterfaces, hchain, interfaceClosure_drain, hobject, Roster.insertAll,
    Roster.toList_insert_of_not_mem]

/-- Nothing that a drain extends implements a sink. -/
theorem implementation?_drain {m : Method} :
    firstAnswer (fun u => outcome ((running bodies).implementation? m u))
      ((running bodies).chain (running bodies).walkLimit (.decl drain)) = .ok none := by
  have hchain : (running bodies).chain (running bodies).walkLimit (.decl drain) =
      [.decl drain, .object] := rfl
  have hoverrides : outcome ((running bodies).overridesOf (.decl drain)) = .ok [] ∧
      outcome ((running bodies).overridesOf .object) = .ok [] := ⟨rfl, rfl⟩
  have hmethods : (running bodies).methods (.decl drain) = [] ∧
      (running bodies).methods .object = [] := ⟨rfl, rfl⟩
  have hnone : ∀ u, outcome ((running bodies).overridesOf u) = .ok [] →
      (running bodies).methods u = [] →
      outcome ((running bodies).implementation? m u) = .ok none := by
    intro u hu hmu
    rw [Program.outcome_implementation?, hu, hmu]
    dsimp only [ok_bind, List.find?_nil]
    split <;> rfl
  simp [hchain, firstAnswer, hnone _ hoverrides.1 hmethods.1, hnone _ hoverrides.2 hmethods.2]

/-- On a drain, accepting leads to itself. -/
theorem resolve_drain (t : Ty) (args : List Ty) :
    outcome ((running bodies).resolve ⟨accept, sinkOf t, args⟩ (.decl drain)) =
      .ok ⟨accept, sinkOf t, args⟩ := by
  have hcode : (⟨accept, sinkOf t, args⟩ : Method).isAbstract = false := rfl
  rw [Program.outcome_resolve_of_interface _ rfl, Program.outcome_interfaceTarget?,
    implementation?_drain, ok_bind, hcode]
  rfl

/-- Drains that exist need their type data and nothing else. -/
theorem expand_drain :
    outcome (Setting.expand { program := running bodies } (.constructed (.decl drain))) =
    .ok { edges := [⟨.typeData (.decl drain), "type handle"⟩] } := by
  have hchain : (running bodies).chain (running bodies).walkLimit (.decl drain) =
      [.decl drain, .object] := rfl
  have hmethods : (running bodies).methods (.decl drain) = [] ∧
      (running bodies).methods .object = [] := ⟨rfl, rfl⟩
  have hslots : outcome (Setting.slotEdges { program := running bodies } (.decl drain)) = .ok [] := by
    simp [Setting.slotEdges, Program.slotsOf, hchain, hmethods, List.filterM, List.filterAuxM]
    rfl
  have hedges : outcome (Setting.interfaceEdges { program := running bodies } (.decl drain)
      (sinkOf (.ofWellKnown .string))) = .ok [] := by
    have haccept : (running bodies).methods (sinkOf (.ofWellKnown .string)) =
        [⟨accept, sinkOf (.ofWellKnown .string), []⟩] := rfl
    have hgeneric : Method.isGenericDefinition
        ⟨accept, sinkOf (.ofWellKnown .string), []⟩ = true := rfl
    simp [Setting.interfaceEdges, haccept, hgeneric]
  refine Setting.outcome_expand_constructed rfl rfl rfl hslots allInterfaces_drain ?_
  intro i hi
  rw [List.mem_singleton.1 hi]
  exact hedges

/-- A drain is a sink, up to canonical forms. -/
theorem derivesUpToCanon_drain :
    ((running bodies).derivesUpToCanon (.decl drain) (sinkOf .canon)).value = true := by
  have hsink : sinkOf (.ofWellKnown .string) ∈
      ((running bodies).allInterfaces (.decl drain)).value := by
    rw [allInterfaces_drain]
    exact List.mem_singleton_self _
  exact (running bodies).derivesUpToCanon_of_mem_interfaces rfl hsink rfl

/-- On a drain, the search for overrides finds the slot, whatever is accepted. -/
theorem genericOverride_running (args : List Ty) :
    outcome (Setting.genericOverride { program := running bodies } ⟨accept, sinkOf .canon, args⟩
      (.decl drain)) = .ok [⟨(Setting.codeNode { program := running bodies }
        ⟨accept, sinkOf .canon, args⟩).value, "generic virtual method override"⟩] := by
  have hcode : (⟨accept, sinkOf .canon, args⟩ : Method).isAbstract = false := rfl
  rw [Setting.outcome_genericOverride (S := { program := running bodies })
    (v := ⟨accept, sinkOf .canon, args⟩) rfl derivesUpToCanon_drain, resolve_drain, ok_bind, hcode,
    if_neg Bool.false_ne_true]

end Drain

/-- On a drain, the search for what accepts a number finds the shared code. -/
theorem genericOverride_drain : outcome (setting.genericOverride sharedAccept (.decl drain)) =
    .ok [⟨.code sharedAccept, "generic virtual method override"⟩] := by
  rw [sharedAccept, genericOverride_running, ← sharedAccept,
    setting.value_codeNode_of_canonical (m := sharedAccept) rfl]

/-- Drains exist, and a sink is fed. -/
def drainRoots : List Root :=
  [{ kind := .method feed.method, reason := "entry point" },
    { kind := .constructed (.decl drain), reason := "factory" }]

/-- What is needed to feed a drain. -/
def drainNodes : List Node :=
  [.code feed.method, .constructed (.decl drain), .slot sharedAccept, .code sharedAccept,
    .typeData (.decl drain), .typeData .object]

/-- Feeding a drain needs what is listed. -/
theorem selfContained_drain : setting.SelfContained drainNodes := by
  have hdrain := setting.outcome_expand_typeData (t := .decl drain) (some .object) rfl rfl rfl
  have hobject := setting.outcome_expand_typeData (t := .object) none rfl rfl rfl
  refine .of_slot (.cons expand_feed <| .cons expand_drain <| .cons rfl <|
    .cons expand_sharedAccept <| .cons hdrain <| .cons hobject .nil)
    ?_ ?_ ?_ genericOverride_drain ?_ <;> simp [drainNodes]

/-- Feeding a drain marks that a sink is fed, and that drains exist. -/
theorem exists_analyze_drain : ∃ fuel g,
    outcome (setting.analyze fuel drainRoots none) = .ok (some g) ∧
      g.isMarked (.code feed.method) = true ∧ g.isMarked (.constructed (.decl drain)) = true ∧
      ∀ n, g.isMarked n = true → n ∈ drainNodes := by
  obtain ⟨fuel, g, hg, hroots, hnodes⟩ := selfContained_drain.exists_analyze drainRoots
    (.cons (setting.rootNodes_method rfl rfl) (.cons rfl .nil)) (by simp [drainNodes])
  exact ⟨fuel, g, hg, hroots _ (by simp), hroots _ (by simp), hnodes⟩

/-- An interface method with a body of its own may be missed if nothing implements it: a drain is a
sink for texts, so what runs when it accepts a number is the method of sinks for texts; but only
the code that it shares is marked, and the method itself is not. -/
theorem exists_scan_missing_generic_override : ∃ fuel scan,
    outcome (program.scan fuel {} drainRoots none) = .ok (some scan) ∧
      acceptInt32.hasCanon = false ∧ scan.graph.isMarked (.code feed.method) = true ∧
      setting.CallsThroughSlot (.code feed.method) acceptInt32 ∧ program.Declares acceptInt32 ∧
      acceptInt32.args ≠ [] ∧ scan.graph.isMarked (.constructed (.decl drain)) = true ∧
      (Ty.decl drain).isAbstract = false ∧ acceptInt32.owner.isInterface = true ∧
      acceptInt32.owner ∈ (program.allInterfaces (.decl drain)).value ∧
      outcome (program.resolve acceptInt32 (.decl drain)) = .ok acceptInt32 ∧
      acceptInt32.isAbstract = false ∧
      scan.graph.isMarked (setting.codeNode acceptInt32).value = false := by
  obtain ⟨fuel, g, hg, hfeed, hobjects, hnodes⟩ := exists_analyze_drain
  have hcall : setting.CallsThroughSlot (.code feed.method) acceptInt32 :=
    ⟨_, _, .known acceptInt32, none, none, .code rfl body?_feed, rfl, List.mem_cons_self,
      calledMethod_acceptInt32, rfl, rfl, rfl⟩
  have hsink : acceptInt32.owner ∈ (program.allInterfaces (.decl drain)).value := by
    rw [allInterfaces_drain]
    exact List.mem_singleton_self _
  have hmissing : g.isMarked (setting.codeNode acceptInt32).value = false := by
    have hshadow : (setting.codeNode acceptInt32).value = .shadow acceptInt32 := by
      have hcanonical : acceptInt32.canonical = sharedAccept := rfl
      have hne : sharedAccept ≠ acceptInt32 := by
        simp [sharedAccept, acceptInt32, sinkOf, Ty.ofWellKnown]
      simp [Setting.codeNode, Setting.codeOwner, hcanonical, hne]
    rw [hshadow, Bool.eq_false_iff]
    intro haccept
    have hmem := hnodes _ haccept
    simp [drainNodes] at hmem
  exact ⟨fuel, ⟨g, drainRoots⟩, Program.scan_of_analyze hg, rfl, hfeed, hcall,
    ⟨sink, rfl, List.mem_singleton_self _⟩, by simp [acceptInt32], hobjects, rfl, rfl, hsink,
    resolve_drain _ _, rfl, hmissing⟩

end Sinking

end AheadOfTime
