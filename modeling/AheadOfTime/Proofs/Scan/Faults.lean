import AheadOfTime.Proofs.Scan.Import
import AheadOfTime.Scan.Run

/-!
# What goes wrong during a scan

Apart from a body that is missing, whatever goes wrong when a node is expanded is a fault of the
declarations, of an instantiation or of a body that refers to nothing.  Such faults are fatal, so a
scan that succeeds met none of them.
-/

set_option autoImplicit false

namespace AheadOfTime

/-- Whether a diagnostic reports a fault of declarations, instantiations or references. -/
def Diagnostic.isFault : Diagnostic → Bool
  | typeLoad _ _ => true
  | typeError _ => true
  | unresolvedReference _ _ => true
  | genericTooDeep _ _ _ => true
  | _ => false

/-- Faults are fatal. -/
theorem Diagnostic.isFatal_of_isFault {e : Diagnostic} (h : e.isFault = true) :
    e.isFatal = true := by
  cases e <;> simp_all [isFault, isFatal]

/-- Whatever goes wrong is a fault. -/
def Faulty {α : Type} (q : Attempt α) : Prop :=
  ∀ e, outcome q = .error e → e.isFault = true

namespace Faulty

variable {α β : Type}

/-- Returning a value does not go wrong. -/
theorem pure (a : α) : Faulty (Pure.pure a : Attempt α) := by
  intro e he
  cases he

/-- A computation that cannot fail does not go wrong. -/
theorem lift (q : Tracked α) : Faulty (liftM q : Attempt α) := by
  intro e he
  cases he

/-- A refusal reports a fault. -/
theorem refuse (f : Fault) : Faulty (AheadOfTime.refuse f : Attempt α) := by
  intro e he
  cases he
  cases f <;> rfl

/-- Reporting a fault goes wrong with a fault. -/
theorem throw {e : Diagnostic} (h : e.isFault = true) :
    Faulty (MonadExcept.throw e : Attempt α) := by
  intro e' he'
  cases he'
  exact h

/-- Two attempts in a row go wrong with faults if both of them do. -/
theorem bind {q : Attempt α} {f : α → Attempt β} (hq : Faulty q) (hf : ∀ a, Faulty (f a)) :
    Faulty (q >>= f) := by
  intro e he
  rw [outcome_bind] at he
  rcases bind_eq_error.1 he with hq' | ⟨a, -, hf'⟩
  · exact hq e hq'
  · exact hf a e hf'

/-- A function of the result adds nothing that goes wrong. -/
theorem map (f : α → β) {q : Attempt α} (hq : Faulty q) : Faulty (f <$> q) := by
  intro e he
  rw [outcome_map] at he
  cases hq' : outcome q with
  | error e' =>
    rw [hq'] at he
    cases he
    exact hq e hq'
  | ok a =>
    rw [hq'] at he
    cases he

/-- A case distinction goes wrong with faults if both cases do. -/
theorem ite {c : Prop} [Decidable c] {q r : Attempt α} (hq : Faulty q) (hr : Faulty r) :
    Faulty (if c then q else r) := by
  split
  · exact hq
  · exact hr

/-- Attempts along a list go wrong with faults if the single ones do. -/
theorem mapM {f : α → Attempt β} {l : List α} (hf : ∀ a, Faulty (f a)) : Faulty (l.mapM f) := by
  intro e he
  rw [outcome_mapM] at he
  obtain ⟨a, -, ha⟩ := mapM_eq_error he
  exact hf a e ha

/-- A filter goes wrong with faults if the questions about the items do. -/
theorem filterM {p : α → Attempt Bool} {l : List α} (hp : ∀ a, Faulty (p a)) :
    Faulty (l.filterM p) := by
  intro e he
  rw [outcome_filterM] at he
  obtain ⟨a, -, ha⟩ := filterM_eq_error he
  exact hp a e ha

/-- A search goes wrong with faults if the questions about the items do. -/
theorem findM? {p : α → Attempt Bool} {l : List α} (hp : ∀ a, Faulty (p a)) :
    Faulty (l.findM? p) := by
  intro e he
  rw [outcome_findM?] at he
  obtain ⟨a, -, ha⟩ := findM?_eq_error he
  exact hp a e ha

/-- A search up the bases goes wrong with faults if what is asked of each type does. -/
theorem findUp (P : Program) {visit : Ty → Attempt (Option β)} (t : Ty)
    (hv : ∀ u, Faulty (visit u)) : Faulty (P.findUp t visit) := by
  intro e he
  rw [P.outcome_findUp] at he
  obtain ⟨u, -, hu⟩ := firstAnswer_eq_error he
  exact hv u e hu

end Faulty

/-! ## Questions about the program -/

namespace Program

variable (P : Program)

/-- Overrides that cannot be settled are a fault. -/
theorem faulty_overridesOf (t : Ty) : Faulty (P.overridesOf t) := by
  unfold overridesOf
  cases t.decl? with
  | none => exact .pure _
  | some d =>
    refine .bind (.lift _) fun _ => ?_
    cases (P.record d).overrides.settled with
    | ok settled => exact .lift _
    | error fault => exact .refuse _

/-- Whatever goes wrong in looking for what a method overrides is a fault. -/
theorem faulty_overridden? (m : Method) : Faulty (P.overridden? m) := by
  unfold overridden?
  refine .bind (P.faulty_overridesOf _) fun overrides => ?_
  split
  · exact .pure _
  · refine .bind (.lift _) fun base => ?_
    cases base with
    | none => exact .pure _
    | some base => exact .lift _

/-- Whatever goes wrong in some steps of the search for a slot is a fault. -/
theorem faulty_slotFrom (n : Nat) (m : Method) : Faulty (P.slotFrom n m) := by
  induction n generalizing m with
  | zero => exact .pure _
  | succ n ih =>
    rw [slotFrom_succ]
    refine .ite (.pure _) (.bind (P.faulty_overridden? m) fun next => ?_)
    cases next with
    | some next => exact ih next
    | none => exact .pure _

/-- Whatever goes wrong in the search for the slot of a method is a fault. -/
theorem faulty_slotOf (m : Method) : Faulty (P.slotOf m) :=
  .bind (P.faulty_slotFrom _ _) fun _ => .lift _

/-- Whatever goes wrong in listing the slots of a type is a fault. -/
theorem faulty_slotsOf (t : Ty) : Faulty (P.slotsOf t) := by
  refine .bind (.lift _) fun chain => .bind (.mapM fun current => ?_) fun _ => .pure _
  refine .bind (.lift _) fun methods => .filterM fun m => .ite (.pure _) ?_
  exact .bind (P.faulty_slotOf m) fun _ => .pure _

/-- Whatever goes wrong in looking for what fills a slot is a fault. -/
theorem faulty_slotFiller? (slot : Method) (t : Ty) : Faulty (P.slotFiller? slot t) := by
  have hfills : ∀ m, Faulty (do
      let other ← P.slotOf m
      pure (other.decl == slot.decl) : Attempt Bool) := fun m =>
    .bind (P.faulty_slotOf m) fun _ => .pure _
  refine .bind (P.faulty_overridesOf t) fun overrides => ?_
  refine .bind (.findM? fun o => .ite (.pure _) (hfills _)) fun explicit => ?_
  cases explicit with
  | some o => exact .pure _
  | none => exact .bind (.lift _) fun _ => .findM? fun m => .ite (.pure _) (hfills m)

/-- Whatever goes wrong in resolving a call of a class method is a fault. -/
theorem faulty_classTarget (m : Method) (t : Ty) : Faulty (P.classTarget m t) := by
  refine .ite (.pure _) (.bind (P.faulty_slotOf _) fun slot => ?_)
  refine .bind (.findUp P t fun u => P.faulty_slotFiller? slot u) fun found => ?_
  cases found with
  | some found => exact .lift _
  | none => exact .pure _

/-- Whatever goes wrong in looking for the implementation of an interface method is a fault. -/
theorem faulty_implementation? (m : Method) (t : Ty) : Faulty (P.implementation? m t) := by
  refine .bind (P.faulty_overridesOf t) fun overrides => .bind (.lift _) fun explicit => ?_
  cases explicit with
  | some o => exact .pure _
  | none =>
    refine .bind (.lift _) fun closure => .bind (.lift _) fun listed => ?_
    cases listed with
    | none => exact .pure _
    | some listed => exact .bind (.lift _) fun _ => .bind (.lift _) fun _ => .pure _

/-- Whatever goes wrong in resolving a call of an interface method is a fault. -/
theorem faulty_interfaceTarget? (m : Method) (t : Ty) : Faulty (P.interfaceTarget? m t) := by
  refine .bind (.findUp P t fun u => P.faulty_implementation? _ u) fun found => ?_
  cases found with
  | some found => exact .bind (.lift _) fun body => .map _ (P.faulty_classTarget body t)
  | none => exact .pure _

/-- Whatever goes wrong in resolving a call is a fault. -/
theorem faulty_resolve (m : Method) (t : Ty) : Faulty (P.resolve m t) :=
  .ite (.bind (P.faulty_interfaceTarget? m t) fun _ => .pure _) (P.faulty_classTarget m t)

end Program

/-! ## What bodies need -/

namespace Setting

variable (S : Setting)

/-- The method that stands for a slot can only be missing through a fault. -/
theorem faulty_slotFor (m : Method) : Faulty (S.slotFor m) := by
  refine .bind (S.program.faulty_slotOf m) fun slot => .ite (.pure _) (.ite (.lift _) ?_)
  refine .bind (.lift _) fun definition => ?_
  cases definition.apply slot.args with
  | ok applied => exact .lift _
  | error fault => exact .refuse _

/-- The node of a slot can only be missing through a fault. -/
theorem faulty_slotNode (m : Method) : Faulty (S.slotNode m) :=
  .map _ (S.faulty_slotFor m)

/-- A type that is nested too deep is a fault. -/
theorem faulty_checkType (t : Ty) : Faulty (S.checkType t) :=
  .ite (.throw rfl) (.pure _)

/-- A method that is nested too deep is a fault. -/
theorem faulty_checkMethod (m : Method) : Faulty (S.checkMethod m) :=
  .ite (.throw rfl) (.pure _)

end Setting

namespace Importer

variable (I : Importer)

/-- An operand that refers to nothing is a fault. -/
theorem faulty_known {α : Type} (operand : Operand α) : Faulty (I.known operand) := by
  cases operand with
  | known a => exact .pure _
  | unknown symbol => exact .throw rfl

/-- A type operand that refers to nothing is a fault. -/
theorem faulty_type (operand : Operand Ty) : Faulty (I.type operand) :=
  .bind (I.faulty_known operand) fun _ => .bind (.lift _) fun _ => .ite (.refuse _) (.pure _)

/-- A method operand that refers to nothing is a fault. -/
theorem faulty_calledMethod (operand : Operand Method) : Faulty (I.calledMethod operand) :=
  .bind (I.faulty_known operand) fun _ => .bind (.lift _) fun _ => .ite (.refuse _) (.pure _)

/-- Whatever goes wrong in asking for the only target of a call is a fault. -/
theorem faulty_onlyTarget? (m : Method) (receiver : Option Ty) :
    Faulty (I.onlyTarget? m receiver) := by
  intro e he
  rw [I.outcome_onlyTarget?] at he
  rcases bind_eq_error.1 he with he | ⟨onReceiver, -, he⟩
  · split at he
    · have hmap := Faulty.map some (I.setting.program.faulty_resolve m (receiver.getD m.owner))
      exact hmap e (by rwa [outcome_map])
    · cases he
  · cases he

/-- Whatever goes wrong in importing a virtual call is a fault. -/
theorem faulty_virtualCall (offset : Nat) (m : Method) (receiver : Option Ty) (label : String) :
    Faulty (I.virtualCall offset m receiver label) := by
  refine .ite (.lift _) (.bind (I.faulty_onlyTarget? m receiver) fun target => ?_)
  cases target with
  | some target => exact .bind (.lift _) fun _ => .pure _
  | none => exact .bind (I.setting.faulty_slotFor m) fun _ => .pure _

/-- Whatever goes wrong in importing a call on a constrained receiver is a fault. -/
theorem faulty_constrainedCall (offset : Nat) (constraint : Ty) (m : Method) :
    Faulty (I.constrainedCall offset constraint m) := by
  refine .ite (I.faulty_virtualCall _ _ _ _) ?_
  refine .bind (I.setting.program.faulty_resolve _ _) fun target => .ite (.lift _) ?_
  exact .bind (I.faulty_virtualCall _ _ _ _) fun _ => .pure _

/-- Whatever goes wrong in importing a cast is a fault. -/
theorem faulty_cast (offset : Nat) (operand : Operand Ty) (label : String) :
    Faulty (I.cast offset operand label) :=
  .bind (I.faulty_type operand) fun _ => .bind (.lift _) fun _ => .pure _

/-- Whatever goes wrong in importing an access to an instance field is a fault. -/
theorem faulty_instanceField (operand : Operand Field) : Faulty (I.instanceField operand) := by
  refine .bind (I.faulty_known operand) fun f => .bind (.lift _) fun owner => ?_
  cases owner <;> exact .pure _

/-- Whatever goes wrong in importing an access to a static field is a fault. -/
theorem faulty_staticField (operand : Operand Field) : Faulty (I.staticField operand) := by
  refine .bind (I.faulty_known operand) fun f => .bind (.lift _) fun owner => ?_
  cases owner <;> exact .pure _

/-- Whatever goes wrong in importing a token is a fault. -/
theorem faulty_token (token : Token) : Faulty (I.token token) := by
  cases token with
  | type operand => exact .bind (I.faulty_type operand) fun _ => .pure _
  | method operand => exact .bind (I.faulty_calledMethod operand) fun _ => .pure _
  | field operand => exact .bind (I.faulty_known operand) fun _ => .bind (.lift _) fun _ => .pure _

/-- A receiver whose type refers to nothing is a fault. -/
theorem faulty_receiver (receiver : Option (Operand Ty)) : Faulty (receiver.mapM I.type) := by
  cases receiver with
  | none => exact .pure _
  | some operand => exact .map _ (I.faulty_type operand)

/-- Whatever goes wrong in importing an instruction is a fault. -/
theorem faulty_instruction (offset : Nat) (i : Instruction) :
    Faulty (I.instruction offset i) := by
  cases i with
  | call operand => exact .bind (I.faulty_calledMethod operand) fun _ => .lift _
  | ldftn operand => exact .bind (I.faulty_calledMethod operand) fun _ => .lift _
  | callvirt operand receiver =>
    refine .bind (I.faulty_calledMethod operand) fun m => ?_
    exact .bind (I.faulty_receiver receiver) fun _ => I.faulty_virtualCall _ _ _ _
  | ldvirtftn operand =>
    exact .bind (I.faulty_calledMethod operand) fun _ => I.faulty_virtualCall _ _ _ _
  | constrained constraint operand =>
    refine .bind (I.faulty_type constraint) fun c => ?_
    exact .bind (I.faulty_calledMethod operand) fun _ => I.faulty_constrainedCall _ _ _
  | newobj operand =>
    exact .bind (I.faulty_calledMethod operand) fun _ => .bind (.lift _) fun _ => .pure _
  | newarr operand => exact .bind (I.faulty_type operand) fun _ => .bind (.lift _) fun _ => .pure _
  | box operand => exact .bind (I.faulty_type operand) fun _ => .pure _
  | unboxAny operand => exact I.faulty_cast _ _ _
  | castclass operand => exact I.faulty_cast _ _ _
  | isinst operand => exact I.faulty_cast _ _ _
  | ldtoken token => exact I.faulty_token token
  | ldfld operand => exact I.faulty_instanceField operand
  | ldflda operand => exact I.faulty_instanceField operand
  | stfld operand => exact I.faulty_instanceField operand
  | ldsfld operand => exact I.faulty_staticField operand
  | ldsflda operand => exact I.faulty_staticField operand
  | stsfld operand => exact I.faulty_staticField operand
  | _ => exact .pure _

end Importer

/-! ## Nodes -/

namespace Setting

variable (S : Setting)

/-- Whatever goes wrong in importing a body is a fault. -/
theorem faulty_importBody (m : Method) (shared : Bool) (body : Body) :
    Faulty (S.importBody m shared body) :=
  .map _ (.mapM fun _ => Importer.faulty_instruction _ _ _)

/-- Whatever goes wrong in leading from a slot to its override is a fault. -/
theorem faulty_overrideEdge (implementation slot : Method) (label : String) :
    Faulty (S.overrideEdge implementation slot label) :=
  .ite (.pure _) (.bind (.lift _) fun _ => .bind (S.faulty_slotNode slot) fun _ => .pure _)

/-- Whatever goes wrong in listing what fills the slots of a type is a fault. -/
theorem faulty_slotEdges (t : Ty) : Faulty (S.slotEdges t) := by
  refine .bind (S.program.faulty_slotsOf t) fun slots => .bind (.mapM fun slot => ?_) fun _ =>
    .pure _
  exact .bind (S.program.faulty_resolve slot t) fun _ => S.faulty_overrideEdge _ _ _

/-- Whatever goes wrong in listing what implements an interface is a fault. -/
theorem faulty_interfaceEdges (t interface : Ty) : Faulty (S.interfaceEdges t interface) := by
  refine .bind (.lift _) fun methods => .bind (.mapM fun m => ?_) fun _ => .pure _
  refine .ite (.pure _) (.bind (S.program.faulty_interfaceTarget? m t) fun implementation => ?_)
  cases implementation with
  | some implementation => exact S.faulty_overrideEdge _ _ _
  | none => exact .pure _

/-- Whatever goes wrong at a type of which objects exist is a fault. -/
theorem faulty_expandConstructed (t : Ty) : Faulty (S.expandConstructed t) := by
  refine .bind (S.faulty_checkType t) fun _ => .bind (.lift _) fun _ => .ite (.pure _) ?_
  refine .bind (S.faulty_slotEdges t) fun _ => .bind (.lift _) fun _ => ?_
  exact .bind (.mapM fun i => S.faulty_interfaceEdges t i) fun _ => .pure _

/-- Whatever goes wrong at a method that runs on shared code is a fault. -/
theorem faulty_expandShadow (m : Method) : Faulty (S.expandShadow m) := by
  refine .bind (S.faulty_checkMethod m) fun _ => .bind (.lift _) fun _ => ?_
  split
  · exact .bind (S.faulty_importBody _ _ _) fun _ => .pure _
  · exact .pure _

/-- Whatever goes wrong at the statics of a type is a fault. -/
theorem faulty_expandStatics (t : Ty) : Faulty (S.expandStatics t) := by
  refine .bind (S.faulty_checkType t) fun _ => .bind (.lift _) fun constructor => ?_
  cases constructor with
  | some constructor => exact .bind (.lift _) fun _ => .pure _
  | none => exact .pure _

/-- Whatever goes wrong at something that is reflected on is a fault. -/
theorem faulty_expandReflection (r : Reflected) : Faulty (S.expandReflection r) := by
  cases r with
  | type t => exact .bind (S.faulty_checkType t) fun _ => .pure _
  | method m => exact .bind (S.faulty_checkMethod m) fun _ => .pure _
  | field f => exact .pure _

/-- Whatever goes wrong in looking for the override of a generic method is a fault. -/
theorem faulty_genericOverride (m : Method) (t : Ty) : Faulty (S.genericOverride m t) := by
  refine .ite (.pure _) (.bind (.lift _) fun derives => .ite (.pure _) ?_)
  refine .bind (S.program.faulty_resolve m t) fun _ => .ite (.pure _) ?_
  exact .bind (.lift _) fun _ => .pure _

/-- Whatever goes wrong in a search over marked nodes is a fault. -/
theorem faulty_search (n : Node) (nodes : List Node) : Faulty (S.search n nodes) := by
  cases n with
  | slot m =>
    refine .ite (.pure _) (.bind (.mapM fun n => ?_) fun _ => .pure _)
    cases n with
    | constructed t => exact S.faulty_genericOverride m t
    | _ => exact .pure _
  | _ => exact .pure _

/-- Code whose expansion fails without a fault has no body. -/
theorem faulty_expandCode (m : Method) (h : m.isAbstract = true ∨ (S.program.body? m).isSome) :
    Faulty (S.expandCode m) := by
  refine .bind (.bind (S.faulty_checkMethod m) fun _ => ?_) fun _ => .pure _
  split
  · exact .pure _
  · next habstract =>
    split
    · exact S.faulty_importBody _ _ _
    · next hbody => simp [hbody, habstract] at h

/-- Whatever goes wrong at a node is a fault, unless it is code without a body. -/
theorem faulty_expand (n : Node)
    (h : ∀ m, n = .code m → m.isAbstract = true ∨ (S.program.body? m).isSome) :
    Faulty (S.expand n) := by
  cases n with
  | constructed t => exact S.faulty_expandConstructed t
  | typeData t => exact .bind (S.faulty_checkType t) fun _ => .bind (.lift _) fun _ => .pure _
  | code m => exact S.faulty_expandCode m (h m rfl)
  | shadow m => exact S.faulty_expandShadow m
  | slot m => exact .bind (S.faulty_checkMethod m) fun _ => .pure _
  | statics t => exact S.faulty_expandStatics t
  | reflection r => exact S.faulty_expandReflection r

/-- Whatever goes wrong at a node is a fault or a missing body. -/
theorem expand_eq_error {n : Node} {e : Diagnostic} (h : outcome (S.expand n) = .error e) :
    e.isFault = true ∨ ∃ name, e = .bodyNotAvailable name := by
  cases n with
  | code m =>
    rw [outcome_expand_code] at h
    rcases bind_eq_error.1 h with h | ⟨-, -, h⟩
    · exact .inl (S.faulty_checkMethod m e h)
    · split at h
      · cases h
      · split at h
        · rcases bind_eq_error.1 h with h | ⟨imported, -, h⟩
          · exact .inl (S.faulty_importBody _ _ _ e h)
          · cases h
        · cases h
          exact .inr ⟨_, rfl⟩
  | _ => exact .inl (S.faulty_expand _ (fun _ hm => Node.noConfusion hm) e h)

/-- A root that cannot be used is a fault. -/
theorem faulty_rootNodes (k : RootKind) : Faulty (S.rootNodes k) := by
  cases k with
  | method m => exact .ite (.refuse _) (.bind (.lift _) fun _ => .pure _)
  | constructed t => exact .ite (.refuse _) (.pure _)
  | reflectedType t => exact .pure _
  | reflectedMethod m => exact .ite (.bind (.lift _) fun _ => .pure _) (.pure _)

end Setting

end AheadOfTime
