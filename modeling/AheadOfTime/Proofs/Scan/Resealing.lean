import AheadOfTime.Proofs.Scan.GenericOverrides

/-!
# Marking the same roots with another kind of sealing

A body is imported under one kind of sealing and then under another one.  What it needs differs at
its virtual calls only, where another decision may be taken.  The second marking stays within the
first one exactly if, in every body that both of them reach, each of the new decisions needs only
what the first one marked.

A call that was dispatched may now go straight to a method, because sealing is concluded from the
objects that exist.  Then the method runs on such an object, so that it was marked as an override.
A call that went straight to a method may now have to be dispatched.  Nothing of the kind can be
said about its slot.
-/

set_option autoImplicit false

namespace AheadOfTime

open Marking

/-! ## One body under two kinds of sealing -/

namespace Importer

/-- The same body, with sealing concluded from something else. -/
def reseal (I : Importer) (x : Sealing) : Importer :=
  { I with setting := { I.setting with sealing := x } }

/-- An instruction makes a call of a method, on a receiver of which a closer type may be known. -/
inductive MakesCall (I : Importer) : Instruction → Method → Option Ty → Prop
  | callvirt {operand : Operand Method} {receiver : Option (Operand Ty)} {m : Method}
      {r : Option Ty} : outcome (I.calledMethod operand) = .ok m →
      outcome (receiver.mapM I.type) = .ok r → MakesCall I (.callvirt operand receiver) m r
  | ldvirtftn {operand : Operand Method} {m : Method} :
      outcome (I.calledMethod operand) = .ok m → MakesCall I (.ldvirtftn operand) m none
  /-- A value is not boxed for the call if its type has the method itself. -/
  | constrained {constraint : Operand Ty} {operand : Operand Method} {t : Ty} {m : Method} :
      outcome (I.type constraint) = .ok t → outcome (I.calledMethod operand) = .ok m →
      (t.isValueType = true → ∀ target, outcome (I.setting.program.resolve m t) = .ok target →
        ¬ (target.owner = t ∧ target.isAbstract = false)) →
      MakesCall I (.constrained constraint operand) m (some t)

variable {I : Importer} {x : Sealing} {Q : Edge Node → Prop}

/-- An instruction makes the same calls whatever sealing is concluded from. -/
theorem MakesCall.reseal {i : Instruction} {m : Method} {r : Option Ty} (h : I.MakesCall i m r)
    (x : Sealing) : (I.reseal x).MakesCall i m r := by
  cases h with
  | callvirt hm hr => exact .callvirt hm hr
  | ldvirtftn hm => exact .ldvirtftn hm
  | constrained ht hm hboxed => exact .constrained ht hm hboxed

/-- The code of a method that is neither abstract nor static is one edge to its node. -/
theorem value_code {m : Method} {label : String} (hcode : m.isAbstract = false)
    (hstatic : m.isStatic = false) :
    (I.code m label).value = I.edge (I.setting.codeNode m).value label := by
  simp [code, hcode, hstatic]

/-- A constrained call on a value is a direct call if the value's own type has the method; else the
value is boxed for a virtual call. -/
theorem outcome_constrainedCall (I : Importer) (offset : Nat) (t : Ty) (m : Method) :
    outcome (I.constrainedCall offset t m) =
      if !t.isValueType then outcome (I.virtualCall offset m (some t) "constrained call")
      else outcome (I.setting.program.resolve m t) >>= fun target =>
        if target.owner = t && !target.isAbstract then
          .ok (I.directCall offset target "constrained call").value
        else outcome (I.virtualCall offset m (some t) "constrained call") >>= fun rest =>
          .ok (.append ⟨I.edge (.constructed t) "box for constrained call", []⟩ rest) := by
  unfold constrainedCall
  simp only [outcome_ite, outcome_bind, outcome_liftM, outcome_pure]

/-- An instruction needs what its calls need. -/
theorem MakesCall.exists_virtualCall {offset : Nat} {i : Instruction} {m : Method} {r : Option Ty}
    {own : Imported} (hmakes : I.MakesCall i m r) (h : outcome (I.instruction offset i) = .ok own) :
    ∃ label c, outcome (I.virtualCall offset m r label) = .ok c ∧ ∀ e ∈ c.edges, e ∈ own.edges := by
  cases hmakes with
  | callvirt hm hr =>
    rw [outcome_callvirt, hm, ok_bind, hr, ok_bind] at h
    exact ⟨_, own, h, fun _ he => he⟩
  | ldvirtftn hm =>
    simp only [instruction, outcome_bind, hm, ok_bind] at h
    exact ⟨_, own, h, fun _ he => he⟩
  | @constrained constraint operand t m ht hm hboxed =>
    simp only [instruction, outcome_bind, ht, hm, ok_bind] at h
    rw [outcome_constrainedCall] at h
    by_cases hvalue : t.isValueType = true
    · simp only [hvalue, Bool.not_true, Bool.false_eq_true, if_false] at h
      obtain ⟨target, htarget, h⟩ := bind_eq_ok.1 h
      have hnot : (decide (target.owner = t) && !target.isAbstract) = false := by
        simpa using hboxed hvalue target htarget
      simp only [hnot, Bool.false_eq_true, if_false] at h
      obtain ⟨c, hc, h⟩ := bind_eq_ok.1 h
      cases h
      exact ⟨_, c, hc, fun e he => List.mem_append_right _ he⟩
    · simp only [hvalue, Bool.not_false, if_true] at h
      exact ⟨_, own, h, fun _ he => he⟩

/-- What a call needs that is made under a constraint, given what it needs if it is dispatched. -/
theorem edges_constrainedCall_reseal {offset : Nat} {t : Ty} {m : Method} {own own' : Imported}
    (hcall : (t.isValueType = true → ∀ target,
        outcome (I.setting.program.resolve m t) = .ok target →
          ¬ (target.owner = t ∧ target.isAbstract = false)) →
      ∀ {label : String} {c c' : Imported},
      outcome (I.virtualCall offset m (some t) label) = .ok c →
      outcome ((I.reseal x).virtualCall offset m (some t) label) = .ok c' →
      (∀ e ∈ c.edges, Q e) → ∀ e ∈ c'.edges, Q e)
    (h : outcome (I.constrainedCall offset t m) = .ok own)
    (h' : outcome ((I.reseal x).constrainedCall offset t m) = .ok own')
    (hown : ∀ e ∈ own.edges, Q e) : ∀ e ∈ own'.edges, Q e := by
  rw [outcome_constrainedCall] at h h'
  by_cases hvalue : t.isValueType = true
  · simp only [hvalue, Bool.not_true, Bool.false_eq_true, if_false] at h h'
    obtain ⟨target, htarget, h⟩ := bind_eq_ok.1 h
    obtain ⟨target', htarget', h'⟩ := bind_eq_ok.1 h'
    cases htarget.symm.trans htarget'
    by_cases hdirect : target.owner = t ∧ target.isAbstract = false
    · simp only [hdirect.1, hdirect.2, Bool.not_false, decide_true, Bool.and_self, if_true,
        Except.ok.injEq] at h h'
      rw [← h']
      rw [← h] at hown
      exact hown
    · have hnot : (decide (target.owner = t) && !target.isAbstract) = false := by
        simpa using hdirect
      simp only [hnot, Bool.false_eq_true, if_false] at h h'
      obtain ⟨c, hc, h⟩ := bind_eq_ok.1 h
      obtain ⟨c', hc', h'⟩ := bind_eq_ok.1 h'
      cases h
      cases h'
      intro e he
      rcases List.mem_append.1 he with he | he
      · exact hown e (List.mem_append_left _ he)
      · refine hcall ?_ hc hc' (fun e he => hown e (List.mem_append_right _ he)) e he
        intro _ target' htarget'
        cases htarget.symm.trans htarget'
        exact hdirect
  · simp only [hvalue, Bool.not_false, if_true] at h h'
    exact hcall (fun h => absurd h hvalue) h h' hown

/-- What an instruction needs under another kind of sealing, given what its calls need: casts may be
carried out differently, but need the same. -/
theorem edges_instruction_reseal {offset : Nat} {i : Instruction} {own own' : Imported}
    (hcall : ∀ {m : Method} {r : Option Ty}, I.MakesCall i m r → ∀ {label : String}
      {c c' : Imported}, outcome (I.virtualCall offset m r label) = .ok c →
      outcome ((I.reseal x).virtualCall offset m r label) = .ok c' →
      (∀ e ∈ c.edges, Q e) → ∀ e ∈ c'.edges, Q e)
    (h : outcome (I.instruction offset i) = .ok own)
    (h' : outcome ((I.reseal x).instruction offset i) = .ok own')
    (hown : ∀ e ∈ own.edges, Q e) : ∀ e ∈ own'.edges, Q e := by
  have hcast : ∀ {operand : Operand Ty} {label : String},
      outcome (I.cast offset operand label) = .ok own →
      outcome ((I.reseal x).cast offset operand label) = .ok own' → ∀ e ∈ own'.edges, Q e := by
    intro operand label h h'
    simp only [cast, outcome_bind, outcome_liftM, ok_bind, outcome_pure] at h h'
    obtain ⟨t, ht, h⟩ := bind_eq_ok.1 h
    obtain ⟨t', ht', h'⟩ := bind_eq_ok.1 h'
    cases ht.symm.trans ht'
    cases h
    cases h'
    exact hown
  cases i with
  | callvirt operand receiver =>
    rw [outcome_callvirt] at h h'
    obtain ⟨m, hm, h⟩ := bind_eq_ok.1 h
    obtain ⟨m', hm', h'⟩ := bind_eq_ok.1 h'
    cases hm.symm.trans hm'
    obtain ⟨r, hr, h⟩ := bind_eq_ok.1 h
    obtain ⟨r', hr', h'⟩ := bind_eq_ok.1 h'
    cases hr.symm.trans hr'
    exact hcall (.callvirt hm hr) h h' hown
  | ldvirtftn operand =>
    simp only [instruction, outcome_bind] at h h'
    obtain ⟨m, hm, h⟩ := bind_eq_ok.1 h
    obtain ⟨m', hm', h'⟩ := bind_eq_ok.1 h'
    cases hm.symm.trans hm'
    exact hcall (.ldvirtftn hm) h h' hown
  | constrained constraint operand =>
    simp only [instruction, outcome_bind] at h h'
    obtain ⟨t, ht, h⟩ := bind_eq_ok.1 h
    obtain ⟨t', ht', h'⟩ := bind_eq_ok.1 h'
    cases ht.symm.trans ht'
    obtain ⟨m, hm, h⟩ := bind_eq_ok.1 h
    obtain ⟨m', hm', h'⟩ := bind_eq_ok.1 h'
    cases hm.symm.trans hm'
    exact edges_constrainedCall_reseal (fun hmakes => hcall (.constrained ht hm hmakes)) h h' hown
  | unboxAny operand => exact hcast h h'
  | castclass operand => exact hcast h h'
  | isinst operand => exact hcast h h'
  | _ =>
    cases h.symm.trans h'
    exact hown

end Importer

/-! ## Decisions that need only what is marked -/

/-- Sealing is concluded from objects that exist: whatever is sealed is compared as their types. -/
structure Sealing.OfObjects (x : Sealing) (P : Program) (g : NodeGraph) : Prop where
  type : ∀ {t : Ty}, (x.sealsType t).value = true → ∃ c, g.isMarked (.constructed c) = true ∧
    (Constructed.key c).value = (Constructed.key t).value
  method : ∀ {m : Method}, (x.sealsMethod P m).value = true → ∃ c,
    g.isMarked (.constructed c) = true ∧
      (Constructed.key c).value = (Constructed.key m.owner).value

namespace Setting

/-- The same setting, with sealing concluded from something else. -/
def reseal (S : Setting) (x : Sealing) : Setting :=
  { S with sealing := x }

/-- A method is what runs when another one is called on objects of a type that answers the call. -/
structure RunsOn (S : Setting) (m : Method) (c : Ty) (target : Method) : Prop where
  concrete : c.isAbstract = false
  leads : outcome (S.program.resolve m c) = .ok target
  declared : S.program.Declares m
  answers : m.args = [] ∧ m.decl.signature.arity = 0 ∧ S.program.AnswersCall m c ∨
    m.args ≠ [] ∧ S.program.AnswersGenericCall m c ∧
      (m.owner.isInterface = true → target = m → m.owner.canonical = m.owner)

/-- A body may call a method in place of another one, given that objects exist of types that are
compared as `t`: the method runs on all of them, or the body is shared and leaves the method to
others because it mentions the placeholder. -/
def MayCall (S : Setting) (g : NodeGraph) (I : Importer) (m : Method) (t : Ty) (target : Method) :
    Prop :=
  target.isStatic = false ∧
    (I.skipsCanon = true ∧ target.hasCanon = true ∨
      ∀ c, g.isMarked (.constructed c) = true →
        (Constructed.key c).value = (Constructed.key t).value → S.RunsOn m c target)

/-- A virtual call needs nothing that is not marked if sealing is concluded from something else. -/
inductive KeepsCall (S : Setting) (g : NodeGraph) (x : Sealing) (I : Importer) (m : Method)
    (r : Option Ty) : Prop
  /-- The decision is the same. -/
  | same : outcome ((I.reseal x).onlyTarget? m r) = outcome (I.onlyTarget? m r) →
      KeepsCall S g x I m r
  /-- The call was dispatched, and may go straight to what runs on the receiver or on the owner of
  the method. -/
  | dispatched : outcome (I.onlyTarget? m r) = .ok none →
      (∀ v, outcome (S.slotFor m) = .ok v → (I.skipsCanon && (Node.slot v).hasCanon) = true →
        g.isMarked (.slot v) = true) →
      (∀ target, outcome (S.program.resolve m (r.getD m.owner)) = .ok target →
        target.isAbstract = false → S.MayCall g I m (r.getD m.owner) target) →
      (m.owner.isInterface = false → m.isAbstract = false → S.MayCall g I m m.owner m) →
      KeepsCall S g x I m r
  /-- The call has to be dispatched, through a slot that is marked anyway. -/
  | throughSlot {v : Method} : outcome ((I.reseal x).onlyTarget? m r) = .ok none →
      outcome (S.slotFor m) = .ok v →
      g.isMarked (.slot v) = true ∨ (I.skipsCanon && (Node.slot v).hasCanon) = true →
      KeepsCall S g x I m r
  /-- The call goes straight to a method of which everything needed is marked anyway. -/
  | straight {target : Method} : outcome ((I.reseal x).onlyTarget? m r) = .ok (some target) →
      (∀ e ∈ ((I.reseal x).code target "devirtualized call").value, g.isMarked e.target = true) →
      KeepsCall S g x I m r
  /-- No decision can be taken. -/
  | undecided {e : Diagnostic} : outcome ((I.reseal x).onlyTarget? m r) = .error e →
      KeepsCall S g x I m r

variable {S : Setting} {roots : List Root} {g : NodeGraph} {x : Sealing}

/-- What objects need does not depend on what sealing is concluded from. -/
theorem expand_reseal_constructed (S : Setting) (x : Sealing) (t : Ty) :
    (S.reseal x).expand (.constructed t) = S.expand (.constructed t) := rfl

/-- What runs on objects that exist is marked if there is a call through the slot. -/
theorem FixedPoint.isMarked_of_runsOn (h : S.FixedPoint roots g) (hP : S.program.WellFormed)
    (hbases : S.program.HasClassBases) {m target v : Method} {c : Ty} (hm : m.isVirtual = true)
    (hv : outcome (S.slotFor m) = .ok v) (hslot : g.isMarked (.slot v) = true)
    (hc : g.isMarked (.constructed c) = true) (hruns : S.RunsOn m c target)
    (htarget : target.isAbstract = false) : g.isMarked (S.codeNode target).value = true := by
  rcases hruns.answers with ⟨hargs, harity, hanswers⟩ | ⟨hargs, hanswers, hexact⟩
  · obtain ⟨target', hresolve, hmarked⟩ := h.exists_target_of_answersCall hP hbases
      ⟨hm, hruns.declared, hargs⟩ harity hv hslot hc hruns.concrete hanswers
    cases hruns.leads.symm.trans hresolve
    exact hmarked htarget
  · obtain ⟨target', hresolve, hmarked⟩ := h.exists_target_of_answersGenericCall hP hbases
      hruns.declared hm hargs hv hslot hc hruns.concrete hanswers
    cases hruns.leads.symm.trans hresolve
    exact (hmarked htarget).2 hexact

/-- The node for the code of a method mentions the placeholder if the method does. -/
theorem hasCanon_codeNode (S : Setting) (m : Method) :
    (S.codeNode m).value.hasCanon = m.hasCanon := by
  simp only [codeNode, Recorded.value_bind, Recorded.value_pure]
  split <;> rfl

/-- What a call needs that may go straight to a method is marked if there are objects and a call
through the slot. -/
theorem FixedPoint.isMarked_code (h : S.FixedPoint roots g) (hP : S.program.WellFormed)
    (hbases : S.program.HasClassBases) {I : Importer} (hI : I.setting = S) {m target v : Method}
    {t c : Ty} (hm : m.isVirtual = true) (hv : outcome (S.slotFor m) = .ok v)
    (hslot : g.isMarked (.slot v) = true) (hc : g.isMarked (.constructed c) = true)
    (hkey : (Constructed.key c).value = (Constructed.key t).value)
    (hmay : S.MayCall g I m t target) {label : String} :
    ∀ e ∈ ((I.reseal x).code target label).value, g.isMarked e.target = true := by
  intro e he
  obtain ⟨hstatic, hcovered⟩ := hmay
  cases hcode : target.isAbstract with
  | true => simp [Importer.code, hcode] at he
  | false =>
    have hnode : ((I.reseal x).setting.codeNode target).value = (S.codeNode target).value := by
      rw [← hI]
      rfl
    rw [Importer.value_code hcode hstatic, hnode] at he
    rcases hcovered with ⟨hskips, hcanon⟩ | hruns
    · simp [Importer.edge, Importer.reseal, hskips, S.hasCanon_codeNode, hcanon] at he
    · rw [Importer.target_of_mem_edge he]
      exact h.isMarked_of_runsOn hP hbases hm hv hslot hc (hruns c hc hkey) hcode

/-- What a call needs that goes straight to a method because of the objects that exist is marked if
there is a call through the slot. -/
theorem FixedPoint.isMarked_of_onlyTarget? (h : S.FixedPoint roots g) (hP : S.program.WellFormed)
    (hbases : S.program.HasClassBases) (hx : x.OfObjects S.program g) {I : Importer}
    (hI : I.setting = S) {m v target : Method} {r : Option Ty} (hm : m.isVirtual = true)
    (hv : outcome (S.slotFor m) = .ok v) (hslot : g.isMarked (.slot v) = true)
    (honReceiver : ∀ target, outcome (S.program.resolve m (r.getD m.owner)) = .ok target →
      target.isAbstract = false → S.MayCall g I m (r.getD m.owner) target)
    (honOwner : m.owner.isInterface = false → m.isAbstract = false → S.MayCall g I m m.owner m)
    (honly : outcome ((I.reseal x).onlyTarget? m r) = .ok (some target)) {label : String} :
    ∀ e ∈ ((I.reseal x).code target label).value, g.isMarked e.target = true := by
  subst hI
  rcases (I.reseal x).onlyTarget?_eq_some honly with
    ⟨hsealed, hresolve, hcode⟩ | ⟨rfl, howner, hcode, hsealed⟩
  · obtain ⟨c, hc, hkey⟩ := hx.type hsealed
    exact h.isMarked_code hP hbases rfl hm hv hslot hc hkey (honReceiver target hresolve hcode)
  · obtain ⟨c, hc, hkey⟩ := hx.method hsealed
    exact h.isMarked_code hP hbases rfl hm hv hslot hc hkey (honOwner howner hcode)

/-- A call that is kept needs only what is marked. -/
theorem KeepsCall.isMarked (h : S.FixedPoint roots g) (hP : S.program.WellFormed)
    (hbases : S.program.HasClassBases) (hx : x.OfObjects S.program g) {I : Importer}
    (hI : I.setting = S) {m : Method} {r : Option Ty}
    (hkept : m.isVirtual = true → S.KeepsCall g x I m r) {offset : Nat} {label : String}
    {c c' : Imported} (hc : outcome (I.virtualCall offset m r label) = .ok c)
    (hc' : outcome ((I.reseal x).virtualCall offset m r label) = .ok c')
    (hmarked : ∀ e ∈ c.edges, g.isMarked e.target = true) :
    ∀ e ∈ c'.edges, g.isMarked e.target = true := by
  subst hI
  cases hm : m.isVirtual with
  | false =>
    simp only [Importer.virtualCall, hm, Bool.not_false, if_true] at hc hc'
    cases hc.symm.trans hc'
    exact hmarked
  | true =>
    rw [Importer.outcome_virtualCall _ _ _ _ _ hm] at hc hc'
    have hslotFor : outcome ((I.reseal x).setting.slotFor m) = outcome (I.setting.slotFor m) := rfl
    cases hkept hm with
    | same hsame =>
      rw [hsame] at hc'
      cases hc.symm.trans hc'
      exact hmarked
    | dispatched hscan hskipped honReceiver honOwner =>
      rw [hscan, ok_bind] at hc
      obtain ⟨v, hv, hc⟩ := bind_eq_ok.1 hc
      cases hc
      -- The first decision needed the slot, unless the body left it to others.
      have hslot : g.isMarked (.slot v) = true := by
        cases hskips : I.skipsCanon && (Node.slot v).hasCanon with
        | true => exact hskipped v hv hskips
        | false => exact hmarked ⟨.slot v, label⟩ (by simp [Importer.edge, hskips])
      cases honly : outcome ((I.reseal x).onlyTarget? m r) with
      | error e =>
        rw [honly] at hc'
        cases hc'
      | ok target? =>
        rw [honly, ok_bind] at hc'
        cases target? with
        | none =>
          rw [hslotFor, hv, ok_bind] at hc'
          cases hc'
          exact hmarked
        | some target =>
          cases hc'
          exact h.isMarked_of_onlyTarget? hP hbases hx rfl hm hv hslot honReceiver honOwner honly
    | @throughSlot v honly hv hcovered =>
      rw [honly, ok_bind, hslotFor, hv, ok_bind] at hc'
      cases hc'
      intro e he
      rcases hcovered with hslot | hskips
      · rw [Importer.target_of_mem_edge he]
        exact hslot
      · have hnone : (I.reseal x).edge (.slot v) label = [] := by
          simpa [Importer.edge, Importer.reseal] using hskips
        rw [hnone] at he
        cases he
    | @straight target honly hcovered =>
      rw [honly, ok_bind] at hc'
      cases hc'
      exact hcovered
    | undecided herror =>
      rw [herror] at hc'
      cases hc'

/-- A call whose needs are marked under the second kind of sealing is kept. -/
theorem KeepsCall.of_isMarked {I : Importer} (hI : I.setting = S) {m : Method} {r : Option Ty}
    (hm : m.isVirtual = true) {offset : Nat} {label : String} {c : Imported}
    (hc : outcome ((I.reseal x).virtualCall offset m r label) = .ok c)
    (hmarked : ∀ e ∈ c.edges, g.isMarked e.target = true) : S.KeepsCall g x I m r := by
  subst hI
  rw [Importer.outcome_virtualCall _ _ _ _ _ hm] at hc
  obtain ⟨target?, honly, hc⟩ := bind_eq_ok.1 hc
  cases target? with
  | none =>
    obtain ⟨v, hv, hc⟩ := bind_eq_ok.1 hc
    cases hc
    refine .throughSlot honly hv ?_
    cases hskips : I.skipsCanon && (Node.slot v).hasCanon with
    | true => exact .inr rfl
    | false =>
      refine .inl (hmarked ⟨.slot v, label⟩ ?_)
      simp [Importer.edge, Importer.reseal, hskips]
  | some target =>
    cases hc
    exact .straight honly hmarked

/-! ## Markings under two kinds of sealing -/

/-- Every virtual call in the body of a node that both markings reach is kept. -/
def KeepsCalls (S : Setting) (g g' : NodeGraph) (x : Sealing) : Prop :=
  ∀ {n : Node} {I : Importer} {body : Body}, g.isMarked n = true → g'.isMarked n = true →
    S.HasBody n I body → ∀ i ∈ body, ∀ {m : Method} {r : Option Ty}, I.MakesCall i m r →
      m.isVirtual = true → S.KeepsCall g x I m r

/-- Nodes have the same bodies whatever sealing is concluded from. -/
theorem HasBody.reseal {n : Node} {I : Importer} {body : Body} (h : S.HasBody n I body)
    (x : Sealing) : (S.reseal x).HasBody n (I.reseal x) body := by
  cases h with
  | code hcode hbody => exact .code hcode hbody
  | shadow hbody => exact .shadow hbody

variable {g' : NodeGraph}

section Kept

variable (h : S.FixedPoint roots g) (hP : S.program.WellFormed)
  (hbases : S.program.HasClassBases) (hx : x.OfObjects S.program g) (hkept : S.KeepsCalls g g' x)
  {n : Node} (hn : g.isMarked n = true) (hn' : g'.isMarked n = true)

include h hP hbases hx hkept hn hn'

/-- The body of a node that both markings reach needs only what is marked. -/
theorem KeepsCalls.isMarked_importBody {m : Method} {shared : Bool} {body : Body}
    {imported : Imported} (hbody : S.HasBody n (S.importer m shared) body)
    (himported : outcome ((S.reseal x).importBody m shared body) = .ok imported) :
    ∀ e ∈ imported.edges, g.isMarked e.target = true := by
  rw [outcome_importBody] at himported
  obtain ⟨l, hl, himported⟩ := bind_eq_ok.1 himported
  cases himported
  intro e he
  obtain ⟨own', hown', he⟩ := List.mem_flatMap.1 he
  obtain ⟨⟨i, offset⟩, hi, hinstruction'⟩ := (mapM_eq_ok hl).2 own' hown'
  obtain ⟨own, hinstruction, hmarked⟩ := h.exists_imported hn hbody hi
  have hmem : i ∈ body := List.fst_mem_of_mem_zipIdx hi
  refine Importer.edges_instruction_reseal ?_ hinstruction hinstruction' hmarked e he
  intro m' r hmakes label c c' hc hc' hedges
  exact KeepsCall.isMarked h hP hbases hx rfl (hkept hn hn' hbody i hmem hmakes) hc hc' hedges

/-- If all calls are kept, what a node needs is marked when sealing is concluded from something
else. -/
theorem KeepsCalls.isMarked_edge {y : Expansion Node}
    (hy : outcome ((S.reseal x).expand n) = .ok y) : ∀ e ∈ y.edges, g.isMarked e.target = true := by
  intro e he
  cases n with
  | code m =>
    rw [outcome_expand_code] at hy
    obtain ⟨-, -, hy⟩ := bind_eq_ok.1 hy
    split at hy
    · cases hy
      cases he
    · next hcode =>
      split at hy
      · next body hbody =>
        obtain ⟨imported, himported, hy⟩ := bind_eq_ok.1 hy
        cases hy
        exact hkept.isMarked_importBody h hP hbases hx hn hn'
          (.code (Bool.eq_false_iff.2 hcode) hbody) himported e he
      · cases hy
  | shadow m =>
    rw [outcome_expand_shadow] at hy
    obtain ⟨-, -, hy⟩ := bind_eq_ok.1 hy
    have hshared : g.isMarked (.code (S.codeOwner m).value) = true := h.isMarked_shared hn
    split at hy
    · next body hbody =>
      obtain ⟨imported, himported, hy⟩ := bind_eq_ok.1 hy
      cases hy
      rcases List.mem_cons.1 he with rfl | he
      · exact hshared
      · exact hkept.isMarked_importBody h hP hbases hx hn hn' (.shadow hbody) himported e he
    · cases hy
      rw [List.mem_singleton.1 he]
      exact hshared
  | _ => exact h.edge hn hy e he

end Kept

/-- Needs under conditions do not depend on the kind of sealing, as bodies have none. -/
theorem FixedPoint.isMarked_conditional (h : S.FixedPoint roots g) {n : Node} {y : Expansion Node}
    (hn : g.isMarked n = true) (hy : outcome ((S.reseal x).expand n) = .ok y) :
    ∀ e ∈ y.conditional, g.isMarked e.condition = true → g.isMarked e.target = true := by
  intro e he hcondition
  cases n with
  | code m =>
    rw [outcome_expand_code] at hy
    obtain ⟨-, -, hy⟩ := bind_eq_ok.1 hy
    split at hy
    · cases hy
      cases he
    · split at hy
      · obtain ⟨imported, -, hy⟩ := bind_eq_ok.1 hy
        cases hy
        cases he
      · cases hy
  | shadow m =>
    rw [outcome_expand_shadow] at hy
    obtain ⟨-, -, hy⟩ := bind_eq_ok.1 hy
    split at hy
    · obtain ⟨imported, -, hy⟩ := bind_eq_ok.1 hy
      cases hy
      cases he
    · cases hy
      cases he
  | _ => exact h.conditional hn hy e he hcondition

/-- What both markings reach is closed under the second kind of sealing if calls are kept. -/
theorem KeepsCalls.closed (h : S.FixedPoint roots g) (hP : S.program.WellFormed)
    (hbases : S.program.HasClassBases) (hx : x.OfObjects S.program g)
    (h' : (S.reseal x).FixedPoint roots g') (hkept : S.KeepsCalls g g' x) :
    (S.reseal x).system.Closed fun n => g.isMarked n = true ∧ g'.isMarked n = true := by
  refine (S.reseal x).nodeByNode_system.closed ?_ ?_ ?_
  · rintro n y ⟨hn, hn'⟩ hy e he
    rw [value_expand_system] at hy
    exact ⟨hkept.isMarked_edge h hP hbases hx hn hn' hy e he, h'.edge hn' hy e he⟩
  · rintro n y ⟨hn, hn'⟩ hy e he ⟨hcondition, hcondition'⟩
    rw [value_expand_system] at hy
    exact ⟨h.isMarked_conditional hn hy e he hcondition,
      h'.conditional hn' hy e he hcondition'⟩
  · rintro n k y found ⟨hn, hn'⟩ - hdynamic ⟨hk, hk'⟩ hfound e he
    obtain ⟨found₁, hfound₁, hmarked⟩ := h.search hn hdynamic hk
    obtain ⟨found₂, hfound₂, hmarked'⟩ := h'.search hn' hdynamic hk'
    cases hfound.symm.trans hfound₁
    cases hfound.symm.trans hfound₂
    exact ⟨hmarked e he, hmarked' e he⟩

/-- A second marking from the same roots stays within the first one exactly if calls are kept. -/
theorem within_iff_keepsCalls (h : S.FixedPoint roots g) (hP : S.program.WellFormed)
    (hbases : S.program.HasClassBases) (hx : x.OfObjects S.program g)
    (h' : (S.reseal x).FixedPoint roots g') :
    (∀ n, g'.isMarked n = true → g.isMarked n = true) ↔ S.KeepsCalls g g' x := by
  constructor
  · intro hwithin n I body _ hn' hbody i hi m r hmakes hm
    obtain ⟨offset, hoffset⟩ := List.getElem?_of_mem hi
    obtain ⟨own, hinstruction, hmarked⟩ :=
      h'.exists_imported hn' (hbody.reseal x) (List.mem_zipIdx_iff_getElem?.2 hoffset)
    obtain ⟨label, c, hc, hedges⟩ := (hmakes.reseal x).exists_virtualCall hinstruction
    exact .of_isMarked hbody.setting_eq hm hc fun e he => hwithin _ (hmarked e (hedges e he))
  · -- A body that only one of the markings reaches has nothing to keep, so both are followed.
    intro hkept n hn
    have hroots : ∀ n, (S.reseal x).RootNode roots n →
        g.isMarked n = true ∧ g'.isMarked n = true :=
      fun n hroot => ⟨h.root hroot, h'.root hroot⟩
    exact (h'.least (hkept.closed h hP hbases hx h') hroots hn).1

end Setting

end AheadOfTime
