import AheadOfTime.Proofs.Compile.Allocation
import AheadOfTime.Proofs.Compile.Required
import AheadOfTime.Proofs.Program.Instantiated

/-!
# Linking

Listings refer to methods, and one would want that there is code for all of these.  Which code there
is was decided when bodies were imported, and which methods a listing refers to is decided by
reading the same bodies a second time.  The import fills in the arguments that a body runs with, and
knows the types of receivers; the listing takes operands as they are.

Whatever the import calls has code.  If nothing but the arguments makes a difference between the two
readings, a listing is linked exactly if the code that it refers to needs no further arguments.
-/

set_option autoImplicit false

namespace AheadOfTime

open Marking

/-! ## References in listings -/

/-- The places in code that refer to methods. -/
def Code.relocations : Code → List Relocation
  | text _ relocations => relocations
  | trap => []

namespace Listing

/-- The line of an instruction refers to a method: to the operand as it is, or to the only target
of a virtual call. -/
inductive Refers (P : Program) (s : Sealing) : Instruction → Method → Prop
  | call {m : Method} : Refers P s (.call (.known m)) m
  | newobj {m : Method} : Refers P s (.newobj (.known m)) m
  | callvirt {m t : Method} {receiver : Option (Operand Ty)} :
      (callTarget? P s m).run.value = .ok (some t) → Refers P s (.callvirt (.known m) receiver) t

variable {P : Program} {s : Sealing} {m t : Method}

/-- An operand that a listing can show is known. -/
theorem eq_known {operand : Operand Method} (h : (known m operand).run.value = .ok t) :
    operand = .known t := by
  cases operand with
  | known callee =>
    cases h
    rfl
  | unknown symbol => cases h

/-- A line refers to its operand as it is. -/
theorem eq_known_of_referring {mnemonic : String} {operand : Operand Method} {l : Line}
    (h : (referring mnemonic <$> known m operand).run.value = .ok l)
    (ht : l.reference = some t) : operand = .known t := by
  rw [Recorded.value_run_map] at h
  cases hknown : (known m operand).run.value with
  | error text =>
    rw [hknown] at h
    cases h
  | ok callee =>
    rw [hknown] at h
    cases h
    cases ht
    exact eq_known hknown

/-- What a line refers to is referred to by its instruction. -/
theorem refers_of_line {i : Instruction} {l : Line} (h : (line P s m i).run.value = .ok l)
    (ht : l.reference = some t) : Refers P s i t := by
  cases i with
  | call operand =>
    rw [eq_known_of_referring h ht]
    exact .call
  | newobj operand =>
    rw [eq_known_of_referring h ht]
    exact .newobj
  | callvirt operand receiver =>
    rw [line, Recorded.value_run_bind] at h
    obtain ⟨callee, hknown, h⟩ := bind_eq_ok.1 h
    rw [Recorded.value_run_bind] at h
    obtain ⟨target?, htarget, h⟩ := bind_eq_ok.1 h
    rw [eq_known hknown]
    cases target? with
    | some target =>
      cases h
      cases ht
      exact .callvirt htarget
    | none =>
      cases h
      cases ht
  | _ =>
    cases h
    cases ht

/-- What an instruction refers to is the reference of its line. -/
theorem reference_of_refers {i : Instruction} {l : Line} (h : (line P s m i).run.value = .ok l)
    (ht : Refers P s i t) : l.reference = some t := by
  cases ht with
  | call =>
    cases h
    rfl
  | newobj =>
    cases h
    rfl
  | callvirt htarget =>
    simp only [line, known, pure_bind] at h
    rw [Recorded.value_run_bind, htarget] at h
    cases h
    rfl

/-- The places where lines refer to methods are about the methods that the lines refer to. -/
theorem exists_relocation_iff {lines : List Line} {offset : Nat} :
    (∃ x ∈ relocations offset lines, x.target = t) ↔ ∃ l ∈ lines, l.reference = some t := by
  induction lines generalizing offset with
  | nil => simp [relocations]
  | cons l rest ih =>
    simp only [relocations, List.mem_append, or_and_right, exists_or, ih, List.mem_cons,
      exists_eq_left]
    refine or_congr_left ?_
    cases l.reference with
    | none => simp
    | some t' => simp

/-- A virtual call whose target a listing knows has a sealed owner, or the method is sealed. -/
theorem callTarget?_eq_some (hvirtual : m.isVirtual = true)
    (h : (callTarget? P s m).run.value = .ok (some t)) :
    m.owner.isInterface = false ∧
      ((s.sealsType m.owner).value = true ∧ outcome (P.resolve m m.owner) = .ok t ∨
        (s.sealsType m.owner).value = false ∧ m.isAbstract = false ∧
          (s.sealsMethod P m).value = true ∧ t = m) := by
  simp only [callTarget?, hvirtual, Bool.not_true, Bool.false_eq_true, if_false] at h
  split at h
  · cases h
  · next hclass =>
    refine ⟨Bool.eq_false_iff.2 hclass, ?_⟩
    rw [Recorded.value_run_bind] at h
    obtain ⟨sealed, hsealed, h⟩ := bind_eq_ok.1 h
    cases hsealed
    split at h
    · next hseals =>
      rw [Recorded.value_run_map] at h
      have hresolve : (explained (P.resolve m m.owner)).run.value =
          (outcome (P.resolve m m.owner)).mapError Diagnostic.message := rfl
      rw [hresolve] at h
      cases houtcome : outcome (P.resolve m m.owner) with
      | error e =>
        rw [houtcome] at h
        cases h
      | ok target =>
        rw [houtcome] at h
        cases h
        exact .inl ⟨hseals, rfl⟩
    · next hseals =>
      split at h
      · cases h
      · next hcode =>
        rw [Recorded.value_run_bind] at h
        obtain ⟨sealed, hsealed, h⟩ := bind_eq_ok.1 h
        cases hsealed
        split at h
        · next hmethod =>
          cases h
          exact .inr ⟨Bool.eq_false_iff.2 hseals, Bool.eq_false_iff.2 hcode, hmethod, rfl⟩
        · cases h

end Listing

/-! ## Calls that an import sees -/

namespace Importer

variable {I : Importer} {i : Instruction} {m t seen target : Method}

/-- An instruction calls a method, or makes an object with it, without going through a slot. -/
inductive Reaches (I : Importer) : Instruction → Method → Prop
  | call {operand : Operand Method} {m : Method} : outcome (I.calledMethod operand) = .ok m →
      Reaches I (.call operand) m
  | newobj {operand : Operand Method} {m : Method} : outcome (I.calledMethod operand) = .ok m →
      Reaches I (.newobj operand) m
  | direct {operand : Operand Method} {receiver : Option (Operand Ty)} {m : Method} :
      outcome (I.calledMethod operand) = .ok m → m.isVirtual = false →
      Reaches I (.callvirt operand receiver) m
  | only {operand : Operand Method} {receiver : Option (Operand Ty)} {m target : Method}
      {r : Option Ty} : outcome (I.calledMethod operand) = .ok m →
      outcome (receiver.mapM I.type) = .ok r → m.isVirtual = true →
      outcome (I.onlyTarget? m r) = .ok (some target) →
      Reaches I (.callvirt operand receiver) target

/-- The node for the code of a method is needed, unless it is left to others. -/
theorem mem_code (hcode : m.isAbstract = false) (hkept : (I.skipsCanon && m.hasCanon) = false)
    (label : String) : ⟨(I.setting.codeNode m).value, label⟩ ∈ (I.code m label).value := by
  have hedge : ⟨(I.setting.codeNode m).value, label⟩ ∈ I.edge (I.setting.codeNode m).value label :=
    mem_edge (by rw [I.setting.hasCanon_codeNode, hkept]) label
  simp only [code, hcode, Bool.false_eq_true, if_false]
  split
  · simp only [Recorded.value_bind, Recorded.value_pure]
    exact List.mem_append_right _ hedge
  · exact List.mem_append_right _ hedge

/-- An instruction needs the code that it reaches. -/
theorem Reaches.exists_mem (h : I.Reaches i target) (hcode : target.isAbstract = false)
    (hkept : (I.skipsCanon && target.hasCanon) = false) {offset : Nat} {own : Imported}
    (hown : outcome (I.instruction offset i) = .ok own) :
    ∃ e ∈ own.edges, e.target = (I.setting.codeNode target).value := by
  have hmem := fun label => mem_code hcode hkept label
  cases h with
  | call hm =>
    simp only [instruction, outcome_bind, hm, ok_bind] at hown
    cases hown
    exact ⟨_, hmem _, rfl⟩
  | newobj hm =>
    simp only [instruction, outcome_bind, hm, ok_bind] at hown
    cases hown
    exact ⟨_, List.mem_append_right _ (hmem _), rfl⟩
  | direct hm hnot =>
    rw [outcome_callvirt, hm, ok_bind] at hown
    obtain ⟨r, -, hown⟩ := bind_eq_ok.1 hown
    simp only [virtualCall, hnot, Bool.not_false, if_true] at hown
    cases hown
    exact ⟨_, hmem _, rfl⟩
  | only hm hr hvirtual honly =>
    rw [outcome_callvirt_of_target hm hr hvirtual offset honly] at hown
    cases hown
    exact ⟨_, hmem _, rfl⟩

/-- An instruction refers to a method that the import sees as the same or as another one: arguments
are filled in, and otherwise nothing that the import knows makes a difference. -/
inductive Sees (I : Importer) : Instruction → Method → Method → Prop
  | call {m : Method} : m.FormedFrom (fun _ => True) →
      Sees I (.call (.known m)) m (m.subst I.method.bindings)
  | newobj {m : Method} : m.FormedFrom (fun _ => True) →
      Sees I (.newobj (.known m)) m (m.subst I.method.bindings)
  | direct {m : Method} {receiver : Option (Operand Ty)} : m.FormedFrom (fun _ => True) →
      m.isVirtual = false → Sees I (.callvirt (.known m) receiver) m (m.subst I.method.bindings)
  | only {m target : Method} {receiver : Option (Operand Ty)} {r : Option Ty} :
      m.isOpen = false → m.isVirtual = true → outcome (receiver.mapM I.type) = .ok r →
      outcome (I.onlyTarget? m r) = outcome (I.onlyTarget? m none) →
      Sees I (.callvirt (.known m) receiver) target target

/-- A called method is the operand with the arguments of the caller filled in. -/
theorem eq_subst_of_calledMethod (h : outcome (I.calledMethod (.known m)) = .ok target) :
    target = m.subst I.method.bindings := by
  simp only [calledMethod, known, outcome_bind, outcome_pure, ok_bind, outcome_liftM,
    value_needMethod] at h
  split at h
  · cases h
  · cases h
    rfl

/-- Where no closer type of the receiver is known, the import finds the target that a listing
finds. -/
theorem onlyTarget?_of_callTarget? (hvirtual : m.isVirtual = true) (hcode : t.isAbstract = false)
    (h : (Listing.callTarget? I.setting.program I.setting.sealing m).run.value = .ok (some t)) :
    outcome (I.onlyTarget? m none) = .ok (some t) := by
  obtain ⟨hclass, ⟨hseals, hresolve⟩ | ⟨hseals, hconcrete, hmethod, rfl⟩⟩ :=
    Listing.callTarget?_eq_some hvirtual h
  · have hreceiver : I.sealsReceiver m none = true := by
      simp [sealsReceiver, hclass, hseals]
    simp [outcome_onlyTarget?, hreceiver, hresolve, targetGiven, hcode, Option.filter]
  · have hreceiver : I.sealsReceiver t none = false := by
      simp [sealsReceiver, hseals]
    simp [outcome_onlyTarget?, hreceiver, targetGiven, hclass, hconcrete, hmethod]

/-- What an instruction refers to is reached as what the import sees. -/
theorem Sees.reaches (h : I.Sees i t seen) (hcode : seen.isAbstract = false)
    (hrefers : Listing.Refers I.setting.program I.setting.sealing i t) {offset : Nat}
    {own : Imported} (hown : outcome (I.instruction offset i) = .ok own) : I.Reaches i seen := by
  cases h with
  | call _ =>
    simp only [instruction, outcome_bind] at hown
    obtain ⟨target, htarget, -⟩ := bind_eq_ok.1 hown
    rw [← eq_subst_of_calledMethod htarget]
    exact .call htarget
  | newobj _ =>
    simp only [instruction, outcome_bind] at hown
    obtain ⟨target, htarget, -⟩ := bind_eq_ok.1 hown
    rw [← eq_subst_of_calledMethod htarget]
    exact .newobj htarget
  | direct _ hnot =>
    rw [outcome_callvirt] at hown
    obtain ⟨target, htarget, -⟩ := bind_eq_ok.1 hown
    have htarget' := eq_subst_of_calledMethod htarget
    rw [← htarget']
    refine .direct htarget ?_
    rw [htarget']
    exact hnot
  | @only m _ _ _ hopen hvirtual hr hsame =>
    cases hrefers with
    | callvirt htarget =>
      have hseen : m.subst I.method.bindings = m := Method.subst_of_not_isOpen _ hopen
      have hcalled := I.outcome_calledMethod_known (m := m) (by rw [hseen, hopen])
      rw [hseen] at hcalled
      exact .only hcalled hr hvirtual
        (hsame.trans (onlyTarget?_of_callTarget? hvirtual hcode htarget))

end Importer

namespace Setting

variable {S : Setting} {m t seen target : Method}

/-- Filling in arguments leads to the same code, if that code needs none. -/
theorem codeOwner_subst (hm : m.FormedFrom fun _ => True) (σ : Bindings)
    (hclosed : (S.codeOwner m).value.isOpen = false) :
    (S.codeOwner (m.subst σ)).value = (S.codeOwner m).value := by
  rw [value_codeOwner] at hclosed
  rw [value_codeOwner, value_codeOwner]
  split
  · next hshared =>
    rw [if_pos hshared] at hclosed
    exact hm.canonical_subst σ hclosed
  · next hshared =>
    rw [if_neg hshared] at hclosed
    exact Method.subst_of_not_isOpen σ hclosed

/-- A method and what it is seen as have the same code, if that needs no further arguments. -/
theorem codeOwner_of_sees {I : Importer} {i : Instruction} (h : I.Sees i t seen)
    (hclosed : (S.codeOwner t).value.isOpen = false) :
    (S.codeOwner seen).value = (S.codeOwner t).value := by
  cases h with
  | call hm => exact codeOwner_subst hm _ hclosed
  | newobj hm => exact codeOwner_subst hm _ hclosed
  | direct hm _ => exact codeOwner_subst hm _ hclosed
  | only _ _ _ _ => rfl

/-- The body of a node calls a method that has code, and does not leave that to others. -/
def Calls (S : Setting) (n : Node) (target : Method) : Prop :=
  ∃ I body, S.HasBody n I body ∧ target.isAbstract = false ∧
    (I.skipsCanon && target.hasCanon) = false ∧ ∃ i ∈ body, I.Reaches i target

/-- The code of what the body of a marked node calls is marked. -/
theorem FixedPoint.isMarked_of_calls {roots : List Root} {g : NodeGraph}
    (h : S.FixedPoint roots g) {n : Node} (hn : g.isMarked n = true) (hcalls : S.Calls n target) :
    g.isMarked (.code (S.codeOwner target).value) = true := by
  obtain ⟨I, body, hbody, hcode, hkept, i, hi, hreaches⟩ := hcalls
  obtain ⟨offset, hoffset⟩ := List.getElem?_of_mem hi
  obtain ⟨own, hown, hmarked⟩ :=
    h.exists_imported hn hbody (List.mem_zipIdx_iff_getElem?.2 hoffset)
  obtain ⟨e, he, htarget⟩ := hreaches.exists_mem hcode hkept hown
  refine h.isMarked_codeOwner ?_
  rw [← hbody.setting_eq, ← htarget]
  exact hmarked e he

/-- A reference in the body of a marked node is a call of what the import sees. -/
theorem FixedPoint.calls_of_sees {roots : List Root} {g : NodeGraph} (h : S.FixedPoint roots g)
    {n : Node} (hn : g.isMarked n = true) {I : Importer} {body : Body} (hbody : S.HasBody n I body)
    {i : Instruction} (hi : i ∈ body) (hrefers : Listing.Refers S.program S.sealing i t)
    (hsees : I.Sees i t seen) (hcode : seen.isAbstract = false)
    (hkept : (I.skipsCanon && seen.hasCanon) = false) : S.Calls n seen := by
  obtain ⟨offset, hoffset⟩ := List.getElem?_of_mem hi
  obtain ⟨own, hown, -⟩ := h.exists_imported hn hbody (List.mem_zipIdx_iff_getElem?.2 hoffset)
  rw [← hbody.setting_eq] at hrefers
  exact ⟨I, body, hbody, hcode, hkept, i, hi, hsees.reaches hcode hrefers hown⟩

end Setting

/-! ## Linked compilations -/

namespace Compiled

variable (r : Compiled)

/-- There is an entry for the method that owns the code of a given one. -/
def HasCode (t : Method) : Prop :=
  ∃ e ∈ r.methods, e.method = (r.setting.codeOwner t).value

/-- There is code for every method that code refers to. -/
def IsLinked : Prop :=
  ∀ e ∈ r.methods, e.isStub = false → ∀ x ∈ e.code.relocations, r.HasCode x.target

/-- Every reference in a listing is seen by the import of the code, or of a method that runs on it,
as one to a method that has code, and is not left to others. -/
def RefersPlainly : Prop :=
  ∀ e ∈ r.methods, e.isStub = false → ∀ body, r.setting.program.body? e.method = some body →
    ∀ i ∈ body, ∀ t, Listing.Refers r.setting.program r.setting.sealing i t →
      ∃ n I, r.graph.isMarked n = true ∧ r.setting.HasBody n I body ∧
        ∃ seen, I.Sees i t seen ∧ seen.isAbstract = false ∧
          (I.skipsCanon && seen.hasCanon) = false

end Compiled

namespace Compilation

variable {C : Compilation} {fuel : Nat} {scan : Scan} {r : Compiled}

/-- Code is a listing of the body. -/
theorem exists_lines_of_generate (hlisting : C.generator = .listing) {s : Sealing} {m : Method}
    (h : (C.generate s m).value.1.isStub = false) :
    ∃ body lines, C.program.body? m = some body ∧
      (body.mapM fun i => (Listing.line C.program s m i).run.value) = .ok lines ∧
      (C.generate s m).value.1.code = Listing.code lines := by
  unfold generate at h ⊢
  dsimp only at h ⊢
  cases hbody : C.program.body? m with
  | none =>
    rw [hbody] at h
    cases h
  | some body =>
    simp only [hbody, hlisting, Recorded.value_bind, Generator.listing,
      Recorded.value_run_map, Recorded.value_run_mapM] at h ⊢
    cases hlines : body.mapM fun i => (Listing.line C.program s m i).run.value with
    | error text =>
      rw [hlines] at h
      cases h
    | ok lines => exact ⟨body, lines, rfl, hlines, rfl⟩

section Compiled

variable (hlisting : C.generator = .listing) (h : outcome (C.compile fuel scan) = .ok (some r))
include h

/-- What a compilation has marked is a fixed point. -/
theorem fixedPoint_of_compile : r.setting.FixedPoint scan.roots r.graph := by
  rw [setting_of_compile h]
  exact Setting.fixedPoint_of_analyze (compile_eq_ok h).1

/-- A marked method has an entry if no other marked method has its name. -/
theorem hasCode_of_isMarked {t : Method}
    (hmarked : r.graph.isMarked (.code (r.setting.codeOwner t).value) = true)
    (hname : ∀ m, r.graph.isMarked (.code m) = true →
      m.fullChars = (r.setting.codeOwner t).value.fullChars → m = (r.setting.codeOwner t).value) :
    r.HasCode t := by
  obtain ⟨e, he, hsymbol⟩ := exists_mem_methods h hmarked
  obtain ⟨hemarked, heown⟩ := isMarked_of_mem_methods h he
  exact ⟨e, he, hname _ hemarked (Method.symbol_eq_iff.1 (heown.symm.trans hsymbol))⟩

/-- An entry of the output is what was made for its method. -/
theorem eq_made {e : CompiledMethod} (he : e ∈ r.methods) : e = (C.made scan e.method).1 := by
  rw [(compile_eq_ok h).2] at he
  obtain ⟨m, -, rfl⟩ := List.mem_map.1 (mem_of_mem_latestBySymbol he)
  obtain ⟨code, hmade⟩ := C.value_generate (scan.sealing C.program).value m
  have hmethod : (C.generate (scan.sealing C.program).value m).value.1.method = m := by rw [hmade]
  rw [hmethod]
  rfl

include hlisting

/-- Code refers to what the instructions of the body refer to. -/
theorem exists_relocation_iff_refers {e : CompiledMethod} (he : e ∈ r.methods)
    (hcode : e.isStub = false) {t : Method} : (∃ x ∈ e.code.relocations, x.target = t) ↔
      ∃ body, r.setting.program.body? e.method = some body ∧ ∃ i ∈ body,
        Listing.Refers r.setting.program r.setting.sealing i t := by
  have hmade := eq_made h he
  rw [hmade] at hcode
  obtain ⟨body, lines, hbody, hlines, hlisted⟩ := exists_lines_of_generate hlisting hcode
  have hrelocations : e.code.relocations = Listing.relocations 0 lines := by
    rw [hmade, made, hlisted]
    rfl
  obtain ⟨hto, hfrom⟩ := mapM_eq_ok hlines
  rw [hrelocations, Listing.exists_relocation_iff, setting_of_compile h]
  constructor
  · rintro ⟨l, hl, htarget⟩
    obtain ⟨i, hi, hline⟩ := hfrom l hl
    exact ⟨body, hbody, i, hi, Listing.refers_of_line hline htarget⟩
  · rintro ⟨body', hbody', i, hi, hrefers⟩
    cases hbody.symm.trans hbody'
    obtain ⟨l, hl, hline⟩ := hto i hi
    exact ⟨l, hl, Listing.reference_of_refers hline hrefers⟩

/-- Code that is a listing refers to what the instructions of the body refer to.  There is code for
whatever the import of a marked node calls, unless another marked method has the same name.  If
names differ, code needs no further arguments, and references are plain, then there is code for all
that is referred to exactly if this code needs no arguments. -/
theorem isLinked_iff :
    (∀ e ∈ r.methods, e.isStub = false → ∀ t, (∃ x ∈ e.code.relocations, x.target = t) ↔
      ∃ body, r.setting.program.body? e.method = some body ∧ ∃ i ∈ body,
        Listing.Refers r.setting.program r.setting.sealing i t) ∧
    (∀ n target, r.graph.isMarked n = true → r.setting.Calls n target →
      (∀ m, r.graph.isMarked (.code m) = true →
        m.fullChars = (r.setting.codeOwner target).value.fullChars →
          m = (r.setting.codeOwner target).value) → r.HasCode target) ∧
    (r.IsComplete → (∀ m, r.graph.isMarked (.code m) = true → m.isOpen = false) →
      r.RefersPlainly →
      (r.IsLinked ↔ ∀ e ∈ r.methods, e.isStub = false → ∀ x ∈ e.code.relocations,
        (r.setting.codeOwner x.target).value.isOpen = false)) := by
  have hfixed := fixedPoint_of_compile h
  refine ⟨fun e he hcode t => exists_relocation_iff_refers hlisting h he hcode,
    fun n target hn hcalls => hasCode_of_isMarked h (hfixed.isMarked_of_calls hn hcalls),
    fun hcomplete hclosed hplain => ⟨fun hlinked e he hcode x hx => ?_,
      fun hinstantiated e he hcode x hx => ?_⟩⟩
  · obtain ⟨e', he', howner⟩ := hlinked e he hcode x hx
    rw [← howner]
    exact hclosed _ (isMarked_of_mem_methods h he').1
  · obtain ⟨body, hbody, i, hi, hrefers⟩ :=
      (exists_relocation_iff_refers hlisting h he hcode).1 ⟨x, hx, rfl⟩
    obtain ⟨n, I, hn, himported, seen, hsees, hseen, hkept⟩ :=
      hplain e he hcode body hbody i hi _ hrefers
    -- The import calls what it sees, which runs on the code of what the listing refers to.
    have hcalls := hfixed.calls_of_sees hn himported hi hrefers hsees hseen hkept
    have howner := hfixed.isMarked_of_calls hn hcalls
    rw [Setting.codeOwner_of_sees hsees (hinstantiated e he hcode x hx)] at howner
    obtain ⟨e', ⟨he', hmethod⟩, -⟩ := hcomplete _ howner
    exact ⟨e', he', hmethod⟩

end Compiled

end Compilation

/-! ### Tools

A kit for something works by using a tool, either one for the same thing or one for numbers. -/

namespace Toolkit

def tool : TypeDecl := { id := 19, space := "App", name := "Tool`1", arity := 1 }

def kit : TypeDecl := { id := 20, space := "App", name := "Kit`1", arity := 1 }

def use : MethodDecl := .ofName 0 tool "Use" { static := true }

def work : MethodDecl := .ofName 1 kit "Work" { static := true }

/-- Using a tool for something. -/
def useFor (t : Ty) : Method := ⟨use, .app (.decl tool) t, []⟩

abbrev useInt32 : Method := useFor (.ofWellKnown .int32)

/-- Working with a kit for numbers. -/
def workInt32 : Method := ⟨work, .app (.decl kit) (.ofWellKnown .int32), []⟩

def types : List TypeRecord :=
  [.ofMethods tool (some .object) [use], .ofMethods kit (some .object) [work]]

/-- A program in which a tool for a given type is used. -/
def program (t : Ty) : Program :=
  Program.withTypes types
    |>.setBody use.method [.ret]
    |>.setBody work.method [.call (.known (useFor t))]

def roots : List Root :=
  [{ kind := .method workInt32, reason := "entry point" }]

def compilation (t : Ty) : Compilation := { program := program t, roots }

abbrev setting (t : Ty) (x : Sealing) : Setting := { program := program t, sealing := x }

/-- The tool is one for numbers, at least once the arguments of the kit are filled in. -/
def Fits (t : Ty) : Prop :=
  t = .ofWellKnown .int32 ∨ t = .param .type 0

section Marking

variable {t : Ty} (ht : Fits t) (x : Sealing)

/-- To work with a kit is to use the tool. -/
theorem body?_workInt32 : (program t).body? workInt32 = some [.call (.known (useFor t))] := by
  have htypical : workInt32.typical = work.method := rfl
  simp [program, htypical]

/-- Using a tool does nothing. -/
theorem body?_useFor (u : Ty) : (program t).body? (useFor u) = some [.ret] := by
  have htypical : (useFor u).typical = use.method := rfl
  simp [program, htypical, use, work, MethodDecl.ofName]

include ht

/-- Seen from the kit for numbers, the tool is one for numbers. -/
theorem subst_useFor : (useFor t).subst workInt32.bindings = useInt32 := by
  rcases ht with rfl | rfl <;> rfl

/-- Working with a kit for numbers needs a tool for numbers and nothing else. -/
theorem expand_workInt32 : outcome ((setting t x).expand (.code workInt32)) =
    .ok { edges := [⟨.code useInt32, "call"⟩] } := by
  have hcalled : outcome (((setting t x).importer workInt32 true).calledMethod
      (.known (useFor t))) = .ok useInt32 := by
    have hseen := subst_useFor ht
    rw [← hseen]
    refine Importer.outcome_calledMethod_known _ ?_
    show ((useFor t).subst workInt32.bindings).isOpen = false
    rw [hseen]
    rfl
  have hmethods : (program t).methods useInt32.owner = [useInt32] := rfl
  have hconstructor : ((program t).classConstructor? useInt32.owner).value = none := by
    simp [Program.classConstructor?, hmethods]
    rfl
  have hnode := (setting t x).value_codeNode_of_canonical (m := useInt32) rfl
  have hstatic : useInt32.isStatic = true ∧ useInt32.isAbstract = false := ⟨rfl, rfl⟩
  have hcode : (((setting t x).importer workInt32 true).code useInt32 "call").value =
      [⟨.code useInt32, "call"⟩] := by
    simp only [Importer.code, Setting.importer, hstatic.1, hstatic.2, Bool.false_eq_true, if_false,
      if_true, Recorded.value_bind, Recorded.value_pure, Recorded.value_map, hconstructor, hnode]
    rfl
  have hcall : outcome (((setting t x).importer workInt32 true).instruction 0
      (.call (.known (useFor t)))) =
      .ok ⟨[⟨.code useInt32, "call"⟩], [.call 0 useInt32 (.direct useInt32)]⟩ := by
    simp only [Importer.instruction, outcome_bind, hcalled, ok_bind, outcome_liftM,
      Importer.directCall, Recorded.value_bind, Recorded.value_pure, hcode]
  exact (setting t x).outcome_expand_code_singleton rfl rfl body?_workInt32 hcall

/-- What is needed to work with a kit for numbers. -/
def nodes : List Node := [.code workInt32, .code useInt32]

/-- Working with a kit for numbers needs what is listed. -/
theorem selfContained_nodes : (setting t x).SelfContained nodes := by
  have huse : outcome ((setting t x).expand (.code useInt32)) = .ok {} :=
    (setting t x).outcome_expand_code_singleton rfl rfl (body?_useFor _) rfl
  refine .of_plain (.cons (expand_workInt32 ht x) <| .cons huse .nil) ?_ ?_ <;> simp [nodes]

/-- A marking succeeds, and marks the work and the use of the tool. -/
theorem exists_marking : ∃ fuel g,
    outcome ((setting t x).analyze fuel roots none) = .ok (some g) ∧
      ∀ m, g.isMarked (.code m) = true ↔ m = workInt32 ∨ m = useInt32 := by
  obtain ⟨fuel, g, hg, hroots, hnodes⟩ := (selfContained_nodes ht x).exists_analyze roots
    (.cons ((setting t x).rootNodes_method rfl rfl) .nil) (by simp [nodes])
  have hwork : g.isMarked (.code workInt32) = true := hroots _ (by simp)
  refine ⟨fuel, g, hg, fun m => ⟨fun hm => by simpa [nodes] using hnodes _ hm, ?_⟩⟩
  rintro (rfl | rfl)
  · exact hwork
  · exact (Setting.fixedPoint_of_analyze hg).edge hwork (expand_workInt32 ht x) _
      (List.mem_singleton_self _)

end Marking

/-! #### Compiling -/

variable {t : Ty}

/-- The code for working with a kit refers to the tool as the kit names it. -/
theorem generate_workInt32 (s : Sealing) : ((compilation t).generate s workInt32).value =
    (⟨workInt32, workInt32.symbol Symbol.defaultLead,
      Listing.code [Listing.referring "call" (useFor t)], false⟩, none) := by
  have hbody : (compilation t).program.body? workInt32 = some [.call (.known (useFor t))] :=
    body?_workInt32
  rw [Compilation.generate, hbody]
  rfl

/-- Code can be made for using a tool for numbers. -/
theorem generate_useInt32 (s : Sealing) :
    ((compilation t).generate s useInt32).value.2 = none := by
  have hbody : (compilation t).program.body? useInt32 = some [.ret] := body?_useFor _
  rw [Compilation.generate, hbody]
  rfl

/-- A compilation succeeds, and marks the work and the use of the tool. -/
theorem exists_compile (ht : Fits t) : ∃ scanFuel scan fuel r,
    outcome ((compilation t).scan scanFuel) = .ok (some scan) ∧
      outcome ((compilation t).compile fuel scan) = .ok (some r) ∧
      ∀ m, r.graph.isMarked (.code m) = true ↔ m = workInt32 ∨ m = useInt32 := by
  have hmade : ∀ s m, m = workInt32 ∨ m = useInt32 →
      ((compilation t).generate s m).value.2 = none := by
    rintro s m (rfl | rfl)
    · rw [generate_workInt32]
    · exact generate_useInt32 s
  obtain ⟨scanFuel, scan, fuel, r, hscan, -, hr, hmarked⟩ :=
    Compilation.exists_compile_of_codes (C := compilation t) rfl (exists_marking ht) hmade
  exact ⟨scanFuel, scan, fuel, r, hscan, hr, hmarked⟩

section Output

variable {fuel : Nat} {scan : Scan} {r : Compiled}
  (hmarked : ∀ m, r.graph.isMarked (.code m) = true ↔ m = workInt32 ∨ m = useInt32)
  (hr : outcome ((compilation t).compile fuel scan) = .ok (some r))
include hmarked

/-- The marked code needs no further arguments. -/
theorem isOpen_of_isMarked {m : Method} (hm : r.graph.isMarked (.code m) = true) :
    m.isOpen = false := by
  rcases (hmarked m).1 hm with rfl | rfl <;> rfl

include hr

/-- Both methods have their entries. -/
theorem isComplete : r.IsComplete := by
  have hname : workInt32.fullChars ≠ useInt32.fullChars := by decide
  rw [Compilation.isComplete_iff_fullChars_inj hr]
  intro m m' hm hm' hsame
  rcases (hmarked m).1 hm with rfl | rfl <;> rcases (hmarked m').1 hm' with rfl | rfl
  · rfl
  · exact absurd hsame hname
  · exact absurd hsame.symm hname
  · rfl

/-- The only reference is that to the tool. -/
theorem eq_of_refers {e : CompiledMethod} (he : e ∈ r.methods) {body : Body}
    (hbody : r.setting.program.body? e.method = some body) {i : Instruction} (hi : i ∈ body)
    {target : Method} (hrefers : Listing.Refers r.setting.program r.setting.sealing i target) :
    body = [.call (.known (useFor t))] ∧ i = .call (.known (useFor t)) ∧ target = useFor t := by
  rw [Compilation.setting_of_compile hr] at hbody
  rcases (hmarked _).1 (Compilation.isMarked_of_mem_methods hr he).1 with hmethod | hmethod
  · have hown : (program t).body? workInt32 = some body := hmethod ▸ hbody
    rw [body?_workInt32] at hown
    cases hown
    cases List.mem_singleton.1 hi
    cases hrefers
    exact ⟨rfl, rfl, rfl⟩
  · have hown : (program t).body? useInt32 = some body := hmethod ▸ hbody
    rw [body?_useFor] at hown
    cases hown
    cases List.mem_singleton.1 hi
    cases hrefers

/-- The reference to the tool is seen as one to a method that has code. -/
theorem refersPlainly (ht : Fits t) : r.RefersPlainly := by
  intro e he _ body hbody i hi target hrefers
  obtain ⟨rfl, rfl, rfl⟩ := eq_of_refers hmarked hr he hbody hi hrefers
  have hformed : (useFor t).FormedFrom fun _ => True := by
    rcases ht with rfl | rfl
    · exact ⟨rfl, ⟨rfl, trivial, trivial⟩, List.forall_mem_nil _⟩
    · exact ⟨rfl, ⟨rfl, trivial, trivial⟩, List.forall_mem_nil _⟩
  rw [Compilation.setting_of_compile hr]
  exact ⟨.code workInt32, _, (hmarked workInt32).2 (.inl rfl), .code rfl body?_workInt32, _,
    .call hformed, rfl, rfl⟩

/-- The code of the kit refers to the tool. -/
theorem exists_relocation : ∃ e ∈ r.methods, e.isStub = false ∧
    ⟨0, useFor t⟩ ∈ e.code.relocations := by
  obtain ⟨e, ⟨he, hmethod⟩, -⟩ := isComplete hmarked hr _ ((hmarked workInt32).2 (.inl rfl))
  have hmade := Compilation.eq_made hr he
  rw [hmethod, Compilation.made, generate_workInt32] at hmade
  refine ⟨e, he, ?_⟩
  rw [hmade]
  exact ⟨rfl, List.mem_singleton_self _⟩

end Output

/-- If the tool is one for numbers, all code is linked. -/
theorem isLinked_iff_int32 : ∃ scanFuel scan fuel r,
    outcome ((compilation (.ofWellKnown .int32)).scan scanFuel) = .ok (some scan) ∧
      outcome ((compilation (.ofWellKnown .int32)).compile fuel scan) = .ok (some r) ∧
      r.IsComplete ∧ (∀ m, r.graph.isMarked (.code m) = true → m.isOpen = false) ∧
      r.RefersPlainly ∧
      (∃ e ∈ r.methods, e.isStub = false ∧ ⟨0, useInt32⟩ ∈ e.code.relocations) ∧
      r.IsLinked := by
  obtain ⟨scanFuel, scan, fuel, r, hscan, hr, hmarked⟩ := exists_compile (.inl rfl)
  have hcomplete := isComplete hmarked hr
  have hclosed := fun m => isOpen_of_isMarked hmarked (m := m)
  have hplain := refersPlainly hmarked hr (.inl rfl)
  refine ⟨scanFuel, scan, fuel, r, hscan, hr, hcomplete, hclosed, hplain,
    exists_relocation hmarked hr, ?_⟩
  obtain ⟨hreferences, -, hlinked⟩ := Compilation.isLinked_iff rfl hr
  refine (hlinked hcomplete hclosed hplain).2 fun e he hstub x hx => ?_
  obtain ⟨body, hbody, i, hi, hrefers⟩ := (hreferences e he hstub _).1 ⟨x, hx, rfl⟩
  obtain ⟨-, -, htarget⟩ := eq_of_refers hmarked hr he hbody hi hrefers
  rw [htarget, Setting.value_codeOwner]
  split <;> rfl

/-- If the tool is one for the same thing, the code of a kit for numbers refers to a tool for which
there is no code, though names differ, code needs no further arguments and references are plain. -/
theorem exists_compile_dangling : ∃ scanFuel scan fuel r,
    outcome ((compilation (.param .type 0)).scan scanFuel) = .ok (some scan) ∧
      outcome ((compilation (.param .type 0)).compile fuel scan) = .ok (some r) ∧
      r.IsComplete ∧ (∀ m, r.graph.isMarked (.code m) = true → m.isOpen = false) ∧
      r.RefersPlainly ∧ ¬ r.IsLinked := by
  obtain ⟨scanFuel, scan, fuel, r, hscan, hr, hmarked⟩ := exists_compile (.inr rfl)
  refine ⟨scanFuel, scan, fuel, r, hscan, hr, isComplete hmarked hr,
    fun m => isOpen_of_isMarked hmarked, refersPlainly hmarked hr (.inr rfl), fun hlinked => ?_⟩
  obtain ⟨e, he, hstub, hrelocation⟩ := exists_relocation hmarked hr
  obtain ⟨e', he', howner⟩ := hlinked e he hstub _ hrelocation
  have hopen : e'.method.isOpen = true := by
    rw [howner, Setting.value_codeOwner]
    split <;> rfl
  rw [isOpen_of_isMarked hmarked (Compilation.isMarked_of_mem_methods hr he').1] at hopen
  cases hopen

end Toolkit

end AheadOfTime
