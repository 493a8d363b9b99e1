import AheadOfTime.Proofs.Program.Hierarchy
import AheadOfTime.Scan.Expand

/-!
# Calls in bodies

The outcome of importing a virtual call, step by step: whether the receiver is sealed, what the
method leads to on it, and whether the method itself is sealed; and which nodes have a body that is
imported.
-/

set_option autoImplicit false

namespace AheadOfTime

namespace Importer

variable (I : Importer)

/-- An edge to a node leads there, if it is there at all. -/
theorem target_of_mem_edge {I : Importer} {n : Node} {label : String} {e : Marking.Edge Node}
    (he : e ∈ I.edge n label) : e.target = n := by
  unfold edge at he
  split at he
  · cases he
  · rw [List.mem_singleton.1 he]

/-- The receiver of a call if the call can only lead to what runs on it. -/
def sealsReceiver (m : Method) (receiver : Option Ty) : Bool :=
  !(receiver.getD m.owner).isInterface &&
    (I.setting.sealing.sealsType (receiver.getD m.owner)).value

/-- The only target of a call, given what the method leads to on a sealed receiver. -/
def targetGiven (m : Method) (onReceiver : Option Method) : Option Method :=
  match onReceiver.filter fun target => !target.isAbstract with
  | some target => some target
  | none =>
    if m.owner.isInterface || m.isAbstract then none
    else if (I.setting.sealing.sealsMethod I.setting.program m).value then some m else none

/-- The only target of a call is looked for on a sealed receiver first. -/
theorem outcome_onlyTarget? (m : Method) (receiver : Option Ty) :
    outcome (I.onlyTarget? m receiver) =
      (if I.sealsReceiver m receiver then
        some <$> outcome (I.setting.program.resolve m (receiver.getD m.owner)) else .ok none) >>=
      fun onReceiver => .ok (I.targetGiven m onReceiver) := by
  have hjoin : ∀ onReceiver : Option Method,
      outcome (match onReceiver.filter fun target => !target.isAbstract with
        | some target => pure (some target)
        | none =>
          if m.owner.isInterface || m.isAbstract then pure none
          else do
            let sealed ← liftM (I.setting.sealing.sealsMethod I.setting.program m)
            pure (if sealed then some m else none) : Attempt (Option Method)) =
        .ok (I.targetGiven m onReceiver) := by
    intro onReceiver
    unfold targetGiven
    cases onReceiver.filter fun target => !target.isAbstract with
    | some target => rfl
    | none =>
      simp only [outcome_ite, outcome_bind, outcome_liftM, outcome_pure, ok_bind]
      split <;> rfl
  unfold onlyTarget? sealsReceiver
  cases hi : (receiver.getD m.owner).isInterface with
  | true =>
    simp only [hi, if_true, Bool.not_true, Bool.false_and, Bool.false_eq_true, if_false,
      outcome_bind, outcome_pure, ok_bind]
    exact hjoin none
  | false =>
    cases hs : (I.setting.sealing.sealsType (receiver.getD m.owner)).value with
    | false =>
      simp only [hi, hs, Bool.false_eq_true, if_false, Bool.and_false, outcome_bind, outcome_liftM,
        outcome_pure, ok_bind]
      exact hjoin none
    | true =>
      simp only [hi, hs, Bool.false_eq_true, if_false, if_true, Bool.not_false, Bool.true_and,
        outcome_bind, outcome_liftM, outcome_map, ok_bind]
      congr 1
      funext onReceiver
      exact hjoin onReceiver

/-- A call that goes straight to a method has a sealed receiver, or the method is sealed. -/
theorem onlyTarget?_eq_some {m target : Method} {receiver : Option Ty}
    (h : outcome (I.onlyTarget? m receiver) = .ok (some target)) :
    (I.setting.sealing.sealsType (receiver.getD m.owner)).value = true ∧
        outcome (I.setting.program.resolve m (receiver.getD m.owner)) = .ok target ∧
        target.isAbstract = false ∨
      target = m ∧ m.owner.isInterface = false ∧ m.isAbstract = false ∧
        (I.setting.sealing.sealsMethod I.setting.program m).value = true := by
  rw [outcome_onlyTarget?] at h
  obtain ⟨onReceiver, hreceiver, h⟩ := bind_eq_ok.1 h
  rw [Except.ok.injEq, targetGiven] at h
  split at h
  · next target' hfilter =>
    cases h
    obtain ⟨rfl, hcode⟩ := Option.filter_eq_some_iff.1 hfilter
    split at hreceiver
    · next hseals =>
      simp only [sealsReceiver, Bool.and_eq_true] at hseals
      cases hresolve : outcome (I.setting.program.resolve m (receiver.getD m.owner)) with
      | error e =>
        rw [hresolve] at hreceiver
        cases hreceiver
      | ok target =>
        rw [hresolve] at hreceiver
        cases hreceiver
        exact .inl ⟨hseals.2, rfl, by simpa using hcode⟩
    · cases hreceiver
  · split at h
    · cases h
    · next hcode =>
      split at h
      · next hseals =>
        cases h
        simp only [Bool.or_eq_true, not_or, Bool.not_eq_true] at hcode
        exact .inr ⟨rfl, hcode.1, hcode.2, hseals⟩
      · cases h

/-- A virtual call goes straight to its only target, and otherwise through its slot. -/
theorem outcome_virtualCall (offset : Nat) (m : Method) (receiver : Option Ty) (label : String)
    (hm : m.isVirtual = true) :
    outcome (I.virtualCall offset m receiver label) =
      outcome (I.onlyTarget? m receiver) >>= fun target? =>
        match target? with
        | some target => .ok ⟨(I.code target "devirtualized call").value,
            [.call offset m (.devirtualized target)]⟩
        | none => outcome (I.setting.slotFor m) >>= fun slot =>
            .ok ⟨I.edge (.slot slot) label, [.call offset m (.throughSlot slot)]⟩ := by
  unfold virtualCall
  simp only [hm, Bool.not_true, Bool.false_eq_true, if_false, outcome_bind]
  congr 1
  funext target?
  cases target? with
  | some target => rfl
  | none => simp only [outcome_bind, outcome_pure]

/-- A method is called with the arguments of the method whose body it is called in. -/
theorem outcome_calledMethod_known {m : Method} (h : (m.subst I.method.bindings).isOpen = false) :
    outcome (I.calledMethod (.known m)) = .ok (m.subst I.method.bindings) := by
  simp [calledMethod, known, h]

/-- A type is seen with the arguments of the method whose body refers to it. -/
theorem outcome_type_known {t u : Ty} (hu : t.subst I.method.bindings = u)
    (hclosed : u.hasParams = false) : outcome (I.type (.known t)) = .ok u := by
  simp [type, known, hu, hclosed]

/-- Making an array needs objects of the array type. -/
theorem outcome_newarr {operand : Operand Ty} {t : Ty} (ht : outcome (I.type operand) = .ok t)
    (offset : Nat) : outcome (I.instruction offset (.newarr operand)) =
      .ok ⟨I.edge (.constructed (.array t none)) "newarr", []⟩ := by
  simp only [instruction, outcome_bind, ht, ok_bind, outcome_liftM, value_needType, outcome_pure]

/-- A virtual call looks up the method and then the receiver. -/
theorem outcome_callvirt (offset : Nat) (operand : Operand Method)
    (receiver : Option (Operand Ty)) :
    outcome (I.instruction offset (.callvirt operand receiver)) =
      outcome (I.calledMethod operand) >>= fun m =>
        outcome (receiver.mapM I.type) >>= fun r =>
          outcome (I.virtualCall offset m r "callvirt") := by
  simp only [instruction, outcome_bind]

section Callvirt

variable {I} {operand : Operand Method} {receiver : Option (Operand Ty)} {m : Method}
  {r : Option Ty} (hoperand : outcome (I.calledMethod operand) = .ok m)
  (hreceiver : outcome (receiver.mapM I.type) = .ok r) (hm : m.isVirtual = true)

include hoperand hreceiver hm

/-- A virtual call without an only target needs its slot. -/
theorem outcome_callvirt_of_slot {slot : Method} (offset : Nat)
    (honly : outcome (I.onlyTarget? m r) = .ok none)
    (hslot : outcome (I.setting.slotFor m) = .ok slot) :
    outcome (I.instruction offset (.callvirt operand receiver)) =
      .ok ⟨I.edge (.slot slot) "callvirt", [.call offset m (.throughSlot slot)]⟩ := by
  rw [outcome_callvirt, hoperand, ok_bind, hreceiver, ok_bind, outcome_virtualCall _ _ _ _ _ hm,
    honly, ok_bind, hslot, ok_bind]

/-- A virtual call with an only target needs the code of the target. -/
theorem outcome_callvirt_of_target {target : Method} (offset : Nat)
    (honly : outcome (I.onlyTarget? m r) = .ok (some target)) :
    outcome (I.instruction offset (.callvirt operand receiver)) =
      .ok ⟨(I.code target "devirtualized call").value,
        [.call offset m (.devirtualized target)]⟩ := by
  rw [outcome_callvirt, hoperand, ok_bind, hreceiver, ok_bind, outcome_virtualCall _ _ _ _ _ hm,
    honly, ok_bind]

end Callvirt

end Importer

/-! ## Bodies -/

namespace Setting

variable (S : Setting)

/-- The importer of the body of a method, for its code or for a method that runs on shared code. -/
def importer (m : Method) (shared : Bool) : Importer :=
  { setting := S, method := m, skipsCanon := shared && m.hasCanon }

/-- Importing a body is importing its instructions in order. -/
theorem outcome_importBody (m : Method) (shared : Bool) (body : Body) :
    outcome (S.importBody m shared body) =
      (body.zipIdx.mapM fun p => outcome ((S.importer m shared).instruction p.2 p.1)) >>= fun l =>
        .ok (Imported.concat l) := by
  unfold importBody Importer.body importer
  simp only [outcome_map, outcome_mapM]
  cases body.zipIdx.mapM fun p =>
    outcome (Importer.instruction ⟨S, m, shared && m.hasCanon⟩ p.2 p.1) <;> rfl

/-- Code needs what its body needs; abstract methods have no code. -/
theorem outcome_expand_code (m : Method) :
    outcome (S.expand (.code m)) = outcome (S.checkMethod m) >>= fun _ =>
      if m.isAbstract then .ok {}
      else match S.program.body? m with
        | some body => outcome (S.importBody m true body) >>= fun imported =>
            .ok { edges := imported.edges }
        | none => .error (.bodyNotAvailable m.displayName) := by
  simp only [expand, expandCode, importCode, outcome_bind, outcome_ite, bind_assoc]
  congr 1
  funext _
  split
  · rfl
  · cases S.program.body? m <;> rfl

/-- Code that is one instruction needs what the instruction needs. -/
theorem outcome_expand_code_singleton {m : Method} {i : Instruction} {own : Imported}
    (hdepth : outcome (S.checkMethod m) = .ok ()) (hm : m.isAbstract = false)
    (hbody : S.program.body? m = some [i])
    (hi : outcome ((S.importer m true).instruction 0 i) = .ok own) :
    outcome (S.expand (.code m)) = .ok { edges := own.edges } := by
  rw [outcome_expand_code, hdepth, hm, hbody]
  simp [outcome_importBody, hi, Imported.concat]

/-- What runs on shared code needs this code, and what its body needs beyond that. -/
theorem outcome_expand_shadow (m : Method) :
    outcome (S.expand (.shadow m)) = outcome (S.checkMethod m) >>= fun _ =>
      match S.program.body? m with
      | some body => outcome (S.importBody m false body) >>= fun imported =>
          .ok { edges := ⟨.code (S.codeOwner m).value, "shared code"⟩ :: imported.edges }
      | none => .ok { edges := [⟨.code (S.codeOwner m).value, "shared code"⟩] } := by
  simp only [expand, expandShadow, outcome_bind, outcome_liftM, ok_bind]
  congr 1
  funext _
  cases S.program.body? m with
  | some body => simp only [outcome_bind, outcome_pure]
  | none => rfl

/-- What runs on shared code with a single instruction needs this code and what the instruction
needs. -/
theorem outcome_expand_shadow_singleton {m : Method} {i : Instruction} {own : Imported}
    (hdepth : outcome (S.checkMethod m) = .ok ()) (hbody : S.program.body? m = some [i])
    (hi : outcome ((S.importer m false).instruction 0 i) = .ok own) :
    outcome (S.expand (.shadow m)) =
      .ok { edges := ⟨.code (S.codeOwner m).value, "shared code"⟩ :: own.edges } := by
  rw [outcome_expand_shadow, hdepth, hbody]
  simp [outcome_importBody, hi, Imported.concat]

/-- What an instruction of a body needs is needed by the body. -/
theorem mem_importBody {m : Method} {shared : Bool} {body : Body} {imported : Imported}
    (h : outcome (S.importBody m shared body) = .ok imported) {i : Instruction} {offset : Nat}
    (hi : (i, offset) ∈ body.zipIdx) :
    ∃ own, outcome ((S.importer m shared).instruction offset i) = .ok own ∧
      ∀ e ∈ own.edges, e ∈ imported.edges := by
  rw [outcome_importBody] at h
  obtain ⟨l, hl, h⟩ := bind_eq_ok.1 h
  cases h
  obtain ⟨own, hown, hinstruction⟩ := (mapM_eq_ok hl).1 _ hi
  exact ⟨own, hinstruction, fun e he => List.mem_flatMap.2 ⟨own, hown, he⟩⟩

/-- The body of a node: that of code, or that of a method which runs on shared code. -/
inductive HasBody (S : Setting) : Node → Importer → Body → Prop
  | code {m : Method} {body : Body} : m.isAbstract = false → S.program.body? m = some body →
      HasBody S (.code m) (S.importer m true) body
  | shadow {m : Method} {body : Body} : S.program.body? m = some body →
      HasBody S (.shadow m) (S.importer m false) body

/-- A body is imported in the setting of its node. -/
theorem HasBody.setting_eq {S : Setting} {n : Node} {I : Importer} {body : Body}
    (h : S.HasBody n I body) : I.setting = S := by
  cases h <;> rfl

end Setting

end AheadOfTime
