import AheadOfTime.Proofs.Program.Casting
import AheadOfTime.Proofs.Program.Changes
import AheadOfTime.Proofs.Sealing.Declared
import AheadOfTime.Proofs.Substitution

/-!
# What can be cast to a sealed type

The declarations seal a type in view of the whole program: nothing that a world lists can be cast to
it, other than the type itself.  That is so where nothing extends a type that is sealed, a value type
or an array, and it is so for arrays as well, which are sealed by their elements and cast by them.

Nothing extends such a type if no declaration gives one as the base type, which is kept by declaring
further types on top of those that may be extended.
-/

set_option autoImplicit false

namespace AheadOfTime

/-! ## Base types that may be extended -/

/-- An instantiation is extensible if its declaration is neither sealed nor a value type. -/
theorem Ty.isExtensible_of_decl? {t : Ty} {d : TypeDecl} (hd : t.decl? = some d)
    (hsealed : d.flags.sealed = false) (hvalue : d.flags.valueType = false) : t.IsExtensible := by
  refine ⟨?_, ?_, ?_⟩
  · rw [isDeclaredSealed, flags_of_decl? hd, hsealed]
  · rw [isValueType, flags_of_decl? hd, hvalue]
  · cases t <;> first | rfl | cases hd

namespace Program

variable {P P' : Program}

/-- A declared type, with whatever arguments, that is neither sealed nor a value type. -/
def MayBeBase (b : Ty) : Prop :=
  ∃ d, b.decl? = some d ∧ d.flags.sealed = false ∧ d.flags.valueType = false

/-- What is given as a base type are declarations that may be extended, with whatever arguments. -/
def BasesExtensible (P : Program) : Prop :=
  ∀ d b, (P.record d).base.join = some b → MayBeBase b

/-- The roots of all classes, of values and of arrays may be extended. -/
theorem mayBeBase_wellKnown {w : WellKnown} (hw : w = .object ∨ w = .valueType ∨ w = .array) :
    MayBeBase (.ofWellKnown w) := by
  rcases hw with rfl | rfl | rfl <;> exact ⟨_, rfl, rfl, rfl⟩

namespace BasesExtensible

/-- If bases are extensible, so is what any type extends. -/
theorem baseType (hP : P.BasesExtensible) {t b : Ty} (hb : (P.baseType t).value = some b) :
    b.IsExtensible := by
  suffices hbase : MayBeBase b by
    obtain ⟨d, hd, hsealed, hvalue⟩ := hbase
    exact Ty.isExtensible_of_decl? hd hsealed hvalue
  cases hd : t.decl? with
  | some d =>
    rw [P.value_baseType_of_decl? hd, Option.map_eq_some_iff] at hb
    obtain ⟨base, hbase, rfl⟩ := hb
    obtain ⟨e, he, hflags⟩ := hP d base hbase
    exact ⟨e, Ty.decl?_subst _ he, hflags⟩
  | none =>
    unfold Program.baseType at hb
    rw [hd] at hb
    cases t with
    | array e r =>
      cases hb
      exact mayBeBase_wellKnown (.inr (.inr rfl))
    | canon =>
      cases hb
      exact mayBeBase_wellKnown (.inl rfl)
    | _ => cases hb

/-- If bases are extensible, so is everything along the chain of an extensible type. -/
theorem mem_chain (hP : P.BasesExtensible) {n : Nat} {t u : Ty} (ht : t.IsExtensible)
    (hu : u ∈ P.chain n t) : u.IsExtensible := by
  induction n generalizing t with
  | zero => cases hu
  | succ n ih =>
    rw [chain] at hu
    rcases List.mem_cons.1 hu with rfl | hu
    · exact ht
    · cases hb : (P.baseType t).value with
      | none =>
        rw [hb] at hu
        cases hu
      | some b =>
        rw [hb] at hu
        exact ih (hP.baseType hb) hu

/-- If bases are extensible, nothing at all extends a sealed type, a value type or an array. -/
theorem properBases (hP : P.BasesExtensible) (t : Ty) : ∀ b ∈ P.properBases t, b.IsExtensible := by
  intro u hu
  obtain ⟨b, hb, hu⟩ := P.mem_properBases.1 hu
  exact hP.mem_chain (hP.baseType hb) hu

/-- The well-known types extend what may be extended. -/
theorem initial : Program.initial.BasesExtensible := by
  intro d b hb
  unfold record at hb
  cases hrecord : Program.initial.types[d.id]? with
  | none =>
    rw [hrecord] at hb
    cases hb
  | some r =>
    rw [hrecord] at hb
    have hmem : r ∈ Program.initial.types.toList :=
      Array.mem_toList_iff.2 (Array.mem_of_getElem? hrecord)
    rw [Program.initial, List.toList_toArray] at hmem
    obtain ⟨w, -, rfl⟩ := List.mem_map.1 hmem
    obtain ⟨base, hbase, rfl⟩ := Option.map_eq_some_iff.1 hb
    refine mayBeBase_wellKnown ?_
    cases w <;> cases hbase <;> decide

/-- Bases stay extensible when a type is defined. -/
theorem define (hP : P.BasesExtensible) {space name : String} {flags : TypeFlags} {arity : Nat}
    {d : TypeDecl} (h : P.define space name flags arity = .ok (d, P')) : P'.BasesExtensible := by
  intro e b hb
  rcases record_define h e with he | ⟨-, he⟩
  · exact hP e b (by rwa [he] at hb)
  · rw [he] at hb
    cases hb

/-- Bases stay extensible when a base type is given that may be one. -/
theorem setBase (hP : P.BasesExtensible) {t : Ty} {base : Option Ty}
    (hbase : ∀ b ∈ base, MayBeBase b) (h : P.setBase t base = .ok P') : P'.BasesExtensible := by
  obtain ⟨d, -, rfl⟩ := setBase_eq_ok h
  intro e b hb
  rcases P.record_modifyRecord d e fun r => { r with base := some base } with he | ⟨-, he⟩
  · exact hP e b (by rwa [he] at hb)
  · rw [he] at hb
    exact hbase b hb

end BasesExtensible

end Program

/-! ## Sealed types in a world -/

namespace World

variable {w : World}

/-- With an array a world lists the type of its elements. -/
theorem Sound.element_mem (hw : w.Sound) {e : Ty} {r : Option Nat}
    (h : .array e r ∈ w.catalog.types.toList) : e ∈ w.catalog.types.toList :=
  hw.catalog.parts.mem h e (List.mem_singleton_self e)

/-- Where nothing that is listed extends a sealed type, a value type or an array, whatever the
declarations seal is what nothing else can be cast to. -/
theorem canCast_sealed_iff (hw : w.Reachable)
    (hbases : ∀ u ∈ w.catalog.types.toList, ∀ b ∈ w.program.properBases u, b.IsExtensible)
    {c t : Ty} (hc : c ∈ w.catalog.types.toList)
    (hsealed : w.answer (Sealing.declared.sealsType t) = true) :
    w.answer (w.program.canCast c t) = true ↔ c = t := by
  rw [answer_eq_value] at hsealed ⊢
  have hlisted : w.program.ExtendsExtensible (· ∈ w.catalog.types.toList) :=
    ⟨hw.sound.element_mem, fun hu => hbases _ hu⟩
  constructor
  · exact hlisted.eq_of_declaresType_of_canCast hc hsealed
  · rintro rfl
    exact w.program.value_canCast_self c

end World

/-! ## Vaults

Accounts are generic, and so are vaults, which extend them and are sealed. -/

namespace Vaults

def account : TypeDecl := { id := 19, space := "", name := "Account", arity := 1 }

def vault : TypeDecl :=
  { id := 20, space := "", name := "Vault", flags := { sealed := true }, arity := 1 }

/-- Accounts, of what the parameter of a declaration stands for. -/
def extended : Ty :=
  .app (.decl account) (.param .type 0)

def accounts : Program :=
  (Program.initial.withDecl account).modifyRecord account fun r => { r with base := some (some .object) }

def program : Program :=
  (accounts.withDecl vault).modifyRecord vault fun r => { r with base := some (some extended) }

/-- A generic type of texts. -/
def ofTexts (d : TypeDecl) : Ty :=
  .app (.decl d) (.ofWellKnown .string)

/-- Lists of tables with such a type. -/
def tables (d : TypeDecl) : Ty :=
  .array (.array (ofTexts d) (some 2)) none

/-- The name of accounts is not taken. -/
theorem fullName_account : account.fullName ∉ Program.initial.names.toList := by
  rw [Program.initial, Roster.mem_toList_insertAll]
  decide

/-- The name of vaults is not taken. -/
theorem fullName_vault : vault.fullName ∉ accounts.names.toList := by
  rw [accounts, Program.modifyRecord, Program.withDecl, Roster.mem_toList_insert, Program.initial,
    Roster.mem_toList_insertAll]
  decide

/-- Accounts and vaults extend what may be extended. -/
theorem basesExtensible : program.BasesExtensible := by
  have hdeclared := Program.BasesExtensible.initial.define
    (Program.define_withDecl (d := account) rfl rfl fullName_account)
  have haccounts : accounts.BasesExtensible :=
    @Program.BasesExtensible.setBase _ _ hdeclared (.decl account) (some .object)
      (fun b hb => by cases hb; exact Program.mayBeBase_wellKnown (.inl rfl)) rfl
  have hdeclared := haccounts.define (Program.define_withDecl (d := vault) rfl rfl fullName_vault)
  exact @Program.BasesExtensible.setBase _ _ hdeclared (.decl vault) (some extended)
    (fun b hb => by cases hb; exact ⟨account, rfl, rfl, rfl⟩) rfl

/-- Tables of accounts and of vaults are types of the program. -/
theorem hasType_tables : ∀ d ∈ [account, vault], program.HasType (tables d) := by
  have htables : ∀ d, program.HasDecl d → program.HasType (tables d) := fun d hd =>
    ⟨nofun, by decide, rfl, hd, Program.hasDecl_of_getElem? (i := WellKnown.string.decl.id) rfl⟩
  exact List.forall_mem_cons.2 ⟨htables _ (Program.hasDecl_of_getElem? (i := 19) rfl),
    List.forall_mem_singleton.2 (htables _ (Program.hasDecl_of_getElem? (i := 20) rfl))⟩

/-- Both are declared, and tables of both are asked for. -/
theorem exists_reachable : ∃ w : World, w.Reachable ∧ w.program = program ∧
    ∀ d ∈ [account, vault], tables d ∈ w.catalog.types.toList := by
  have haccount := @World.Reachable.withDecl {} .refl account rfl rfl fullName_account
  have haccounts := haccount.tail
    (@World.Step.setBase _ (.decl account) (some .object) _
      (Program.hasDecl_of_getElem? (i := 19) rfl)
      (fun b hb => by cases hb; exact Program.hasDecl_of_getElem? (i := 0) rfl) rfl)
  have hvault := @World.Reachable.withDecl _ haccounts vault rfl rfl fullName_vault
  have hvaults := hvault.tail
    (@World.Step.setBase _ (.decl vault) (some extended) _
      (Program.hasDecl_of_getElem? (i := 20) rfl)
      (fun b hb => by
        cases hb
        exact ⟨rfl, Program.hasDecl_of_getElem? (i := 19) rfl, trivial⟩) rfl)
  have htypes : ∀ t ∈ [account, vault].map tables, program.HasType t :=
    List.forall_mem_map.2 hasType_tables
  obtain ⟨w, hsteps, hprogram, hlisted⟩ := World.Reachable.exists_listed hvaults htypes
  exact ⟨w, hvaults.trans hsteps, hprogram, List.forall_mem_map.1 hlisted⟩

/-- Vaults of texts can be cast to accounts of texts. -/
theorem canCast_vault_account :
    (program.canCast (ofTexts vault) (ofTexts account)).value = true := by
  have hbase : (program.baseType (ofTexts vault)).value = some (ofTexts account) := by
    rw [program.value_baseType_of_decl? (d := vault) rfl]
    rfl
  have hlimit : program.walkLimit = 999999998 + 1 + 1 := rfl
  refine Program.value_canCast_iff.2 (.inl ((program.value_extendsOrImplements rfl).2 (.inr ?_)))
  rw [hlimit, Program.chain, hbase]
  exact .tail _ (.head _)

/-- Tables of vaults are sealed though they are arrays of arrays, and can be cast to tables of
accounts.  Nothing but they themselves can be cast to them. -/
theorem canCast_sealed_iff_tables : ∃ w : World,
    (w.Reachable ∧
      (∀ u ∈ w.catalog.types.toList, ∀ b ∈ w.program.properBases u, b.IsExtensible) ∧
      (∀ d ∈ [account, vault], tables d ∈ w.catalog.types.toList) ∧
      w.answer (Sealing.declared.sealsType (tables vault)) = true) ∧
    w.answer (w.program.canCast (tables vault) (tables account)) = true ∧
    w.answer (w.program.canCast (tables vault) (tables vault)) = true ∧
    w.answer (w.program.canCast (tables account) (tables vault)) = false := by
  obtain ⟨w, hw, hprogram, hlisted⟩ := exists_reachable
  have hbases : ∀ u ∈ w.catalog.types.toList, ∀ b ∈ w.program.properBases u, b.IsExtensible := by
    intro u _
    rw [hprogram]
    exact basesExtensible.properBases u
  have hsealed : w.answer (Sealing.declared.sealsType (tables vault)) = true := by
    rw [World.answer_eq_value]
    rfl
  have hsealedIff := fun d hd => World.canCast_sealed_iff hw hbases (hlisted d hd) hsealed
  refine ⟨w, ⟨hw, hbases, hlisted, hsealed⟩, ?_, ?_, ?_⟩
  · rw [World.answer_eq_value, hprogram]
    exact Program.canCast_array rfl (Program.canCast_array rfl canCast_vault_account _) _
  · exact (hsealedIff vault (.tail _ (.head _))).2 rfl
  · rw [Bool.eq_false_iff, Ne, hsealedIff account (.head _)]
    simp [tables, ofTexts, account, vault]

end Vaults

end AheadOfTime
