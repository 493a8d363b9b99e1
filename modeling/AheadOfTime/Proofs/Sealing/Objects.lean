import AheadOfTime.Proofs.Program.Casting
import AheadOfTime.Proofs.Program.Grounded
import AheadOfTime.Proofs.Sealing
import AheadOfTime.Proofs.Ty.Saturated
import Mathlib.Data.List.Forall2

/-!
# References as objects

If every declared class leads up to the root, then so does every instantiation of one, every array and
the placeholder.  References of all these types can be cast to objects, arrays of them to arrays of
objects, and arrays of objects are not sealed where there are such arrays.

Interfaces extend nothing as a rule, and a cast to the root looks only at what a type extends.  So a
reference that is known by its interface cannot be cast to an object, and arrays of objects may be
sealed although there are arrays of an interface.
-/

set_option autoImplicit false

namespace AheadOfTime

/-! ## Instances of types -/

namespace Ty

/-- A type with parameters replaced by other types, in every place on its own. -/
inductive Specializes : Ty → Ty → Prop
  | param (k : ParamKind) (i : Nat) (t : Ty) : Specializes (.param k i) t
  | decl (d : TypeDecl) : Specializes (.decl d) (.decl d)
  | app {f f' a a' : Ty} : Specializes f f' → Specializes a a' →
      Specializes (.app f a) (.app f' a')
  | array {e e' : Ty} (r : Option Nat) : Specializes e e' → Specializes (.array e r) (.array e' r)
  | pointer {t t' : Ty} : Specializes t t' → Specializes (.pointer t) (.pointer t')
  | byRef {t t' : Ty} : Specializes t t' → Specializes (.byRef t) (.byRef t')
  | canon : Specializes .canon .canon

namespace Specializes

variable {t t' : Ty}

/-- What is specialized item by item is so at every position, and beyond the end. -/
theorem getD {l l' : List Ty} (h : List.Forall₂ Specializes l l') {p : Ty} (hp : Specializes p p)
    (i : Nat) : Specializes (l.getD i p) (l'.getD i p) := by
  induction h generalizing i with
  | nil => exact hp
  | cons ha _ ih =>
    cases i with
    | zero => exact ha
    | succ i => exact ih i

/-- Filling in special arguments gives a special type. -/
theorem subst {σ τ : Bindings} (h : ∀ k i, Specializes ((σ.args k).getD i (.param k i))
    ((τ.args k).getD i (.param k i))) (t : Ty) : Specializes (t.subst σ) (t.subst τ) := by
  induction t with
  | decl d => exact .decl d
  | app f a ihf iha =>
    rw [subst_app, subst_app]
    exact .app ihf iha
  | array e r ih =>
    rw [subst_array, subst_array]
    exact .array r ih
  | pointer t ih =>
    rw [subst_pointer, subst_pointer]
    exact .pointer ih
  | byRef t ih =>
    rw [subst_byRef, subst_byRef]
    exact .byRef ih
  | param k i => exact h k i
  | canon => exact .canon

/-- The declaration stays, and the arguments are special in turn. -/
theorem decl?_args {d : TypeDecl} (h : Specializes t t') (hd : t.decl? = some d) :
    t'.decl? = some d ∧ List.Forall₂ Specializes t.args t'.args := by
  induction h with
  | decl e => exact ⟨hd, .nil⟩
  | app _ ha ihf _ =>
    obtain ⟨hdecl, hargs⟩ := ihf hd
    rw [args_app, args_app]
    exact ⟨hdecl, List.rel_append hargs (.cons ha .nil)⟩
  | _ => cases hd

end Specializes

end Ty

namespace Program

variable {P : Program} {t t' : Ty}

/-- What a special type extends is special too. -/
theorem exists_baseType_of_specializes {b : Ty} (h : t.Specializes t')
    (hb : (P.baseType t).value = some b) :
    ∃ b', (P.baseType t').value = some b' ∧ b.Specializes b' := by
  cases hd : t.decl? with
  | some d =>
    obtain ⟨hd', hargs⟩ := h.decl?_args hd
    rw [P.value_baseType_of_decl? hd, Option.map_eq_some_iff] at hb
    obtain ⟨base, hbase, rfl⟩ := hb
    refine ⟨base.subst { ofType := t'.args }, ?_, .subst (fun k i => ?_) base⟩
    · rw [P.value_baseType_of_decl? hd', hbase]
      rfl
    · cases k with
      | type => exact .getD hargs (.param .type i _) i
      | method => exact .param .method i _
  | none =>
    unfold baseType at hb
    rw [hd] at hb
    cases h with
    | array r _ =>
      cases hb
      exact ⟨_, rfl, .decl _⟩
    | canon =>
      cases hb
      exact ⟨_, rfl, .decl _⟩
    | _ => cases hb

/-- A type that leads up to the root does so with parameters replaced. -/
theorem object_mem_chain_of_specializes {n : Nat} (h : t.Specializes t')
    (hobject : .object ∈ P.chain n t) : .object ∈ P.chain n t' := by
  induction n generalizing t t' with
  | zero => cases hobject
  | succ n ih =>
    rw [chain] at hobject ⊢
    rcases List.mem_cons.1 hobject with rfl | hobject
    · cases h
      exact List.mem_cons_self
    · cases hb : (P.baseType t).value with
      | none =>
        rw [hb] at hobject
        cases hobject
      | some b =>
        obtain ⟨b', hb', hspecial⟩ := exists_baseType_of_specializes h hb
        rw [hb] at hobject
        rw [hb']
        exact List.mem_cons_of_mem _ (ih hspecial hobject)

/-- A declared class that leads up to the root does so with arguments. -/
theorem object_mem_chain_of_decl? {n : Nat} {d : TypeDecl} (hd : t.decl? = some d)
    (hobject : .object ∈ P.chain n (.decl d)) (hroot : .decl d = Ty.object → t = .object) :
    .object ∈ P.chain n t := by
  cases n with
  | zero => cases hobject
  | succ n =>
    by_cases heq : .decl d = Ty.object
    · rw [hroot heq]
      exact List.mem_cons_self
    · rw [chain, P.value_baseType_of_decl? rfl] at hobject
      rw [chain, P.value_baseType_of_decl? hd]
      have hobject := (List.mem_cons.1 hobject).resolve_left (Ne.symm heq)
      cases hbase : (P.record d).base.join with
      | none =>
        rw [hbase] at hobject
        cases hobject
      | some base =>
        rw [hbase] at hobject
        refine List.mem_cons_of_mem _ (object_mem_chain_of_specializes ?_ hobject)
        exact .subst (fun k i => by cases k <;> exact .param _ i _) base

/-! ## What the well-known types extend -/

/-- Walks are long enough, and the well-known types extend what they always extend. -/
structure WellKnownBases (P : Program) : Prop where
  limit : P.walkLimit = 1000000000
  base : ∀ w : WellKnown, (P.record w.decl).base = some (w.base?.map Ty.ofWellKnown)

namespace WellKnownBases

/-- A base type that was given is not changed by what is declared later. -/
theorem of_record {P' : Program} (h : P.WellKnownBases) (hlimit : P'.walkLimit = P.walkLimit)
    (hbase : ∀ d b, (P.record d).base = some b → (P'.record d).base = some b) :
    P'.WellKnownBases :=
  ⟨hlimit.trans h.limit, fun w => hbase _ _ (h.base w)⟩

/-- Defining a type keeps what the well-known types extend. -/
theorem define {P' : Program} {space name : String} {flags : TypeFlags} {arity : Nat} {d : TypeDecl}
    (h : P.WellKnownBases) (hdefine : P.define space name flags arity = .ok (d, P')) :
    P'.WellKnownBases := by
  have hlimit : P'.walkLimit = P.walkLimit := by rw [(define_eq_ok hdefine).2]
  refine h.of_record hlimit fun e b hb => ?_
  rcases record_define hdefine e with he | ⟨hnew, -⟩
  · rwa [he]
  · rw [hnew] at hb
    cases hb

/-- A change that leaves base types alone keeps what the well-known types extend. -/
theorem modifyRecord (h : P.WellKnownBases) (d : TypeDecl) {f : TypeRecord → TypeRecord}
    (hf : ∀ r, (f r).base = r.base) : (P.modifyRecord d f).WellKnownBases := by
  refine h.of_record rfl fun e b hb => ?_
  rcases P.record_modifyRecord d e f with he | ⟨-, he⟩
  · rwa [he]
  · rwa [he, hf]

/-- Setting a base type keeps what the well-known types extend, as theirs are set already. -/
theorem setBase {P' : Program} {u : Ty} {base : Option Ty} (h : P.WellKnownBases)
    (hset : P.setBase u base = .ok P') : P'.WellKnownBases := by
  obtain ⟨d, hnone, rfl⟩ := setBase_eq_ok hset
  refine h.of_record rfl fun e b hb => ?_
  rcases P.record_modifyRecord d e _ with he | ⟨hsame, -⟩
  · rwa [he]
  · -- the base type of this declaration was not given
    rw [hsame, hb] at hnone
    cases hnone

end WellKnownBases

/-- In a program that declarations lead to, the well-known types extend what they always extend. -/
theorem Built.wellKnownBases (h : P.Built) : P.WellKnownBases := by
  induction h with
  | initial => exact ⟨rfl, fun w => by cases w <;> rfl⟩
  | define _ hdefine ih => exact ih.define hdefine
  | setBase _ hset ih => exact ih.setBase hset
  | setInterfaces _ hset ih =>
    obtain ⟨d, rfl⟩ := setInterfaces_eq_ok hset
    exact ih.modifyRecord d fun _ => rfl
  | @addMethod _ _ _ _ _ _ m _ hadd ih =>
    obtain ⟨d, -, -, rfl⟩ := addMethod_eq_ok hadd
    obtain ⟨hlimit, hbase⟩ := ih.modifyRecord d
      (f := fun r => { r with methods := r.methods ++ [m] }) fun _ => rfl
    exact ⟨hlimit, hbase⟩
  | @addField _ _ _ _ _ _ f _ hadd ih =>
    obtain ⟨d, rfl⟩ := addField_eq_ok hadd
    obtain ⟨hlimit, hbase⟩ := ih.modifyRecord d
      (f := fun r => { r with fields := r.fields ++ [f] }) fun _ => rfl
    exact ⟨hlimit, hbase⟩
  | addOverride _ _ hadd ih =>
    obtain ⟨d, -, -, rfl⟩ := addOverride_eq_ok hadd
    exact ih.modifyRecord d fun _ => rfl
  | setBody _ ih => exact ⟨ih.limit, ih.base⟩

namespace WellKnownBases

variable (h : P.WellKnownBases)
include h

/-- A well-known type extends what it always extends. -/
theorem baseType (w : WellKnown) :
    (P.baseType (.ofWellKnown w)).value = w.base?.map Ty.ofWellKnown := by
  rw [P.value_baseType_of_decl? (d := w.decl) rfl, h.base w]
  cases w.base? <;> rfl

/-- The chain of the root of arrays ends at the root of all classes. -/
theorem chain_wellKnownArray (n : Nat) :
    P.chain (n + 1 + 1) (.ofWellKnown .array) = [.ofWellKnown .array, .object] := by
  rw [chain, h.baseType .array]
  show _ :: P.chain (n + 1) (.ofWellKnown .object) = _
  rw [chain, h.baseType .object]
  rfl

/-- Arrays lead up to the root, and to nothing else. -/
theorem chain_array (e : Ty) (r : Option Nat) :
    P.chain P.walkLimit (.array e r) = [.array e r, .ofWellKnown .array, .object] := by
  have hlimit : P.walkLimit = 999999997 + 1 + 1 + 1 := h.limit
  rw [hlimit, Program.chain_array, h.chain_wellKnownArray]

/-- An array extends the root of arrays and the root of all classes. -/
theorem properBases_array (e : Ty) (r : Option Nat) :
    P.properBases (.array e r) = [.ofWellKnown .array, .object] := by
  have hlimit : P.walkLimit = 999999998 + 1 + 1 := h.limit
  rw [properBases, Program.chain_array, List.tail_cons, hlimit, h.chain_wellKnownArray]

/-- All well-known types lead up to the root, the primitive ones through that of value types. -/
theorem object_mem_chain (w : WellKnown) : .object ∈ P.chain P.walkLimit (.ofWellKnown w) := by
  have hlimit : P.walkLimit = 999999997 + 1 + 1 + 1 := h.limit
  have hcases : w = .object ∨ w.base? = some .object ∨ w.base? = some .valueType := by
    cases w <;> decide
  rw [hlimit, chain, h.baseType w]
  rcases hcases with rfl | hw | hw
  · exact List.mem_cons_self
  · rw [hw]
    exact List.mem_cons_of_mem _ List.mem_cons_self
  · rw [hw]
    refine List.mem_cons_of_mem _ ?_
    show .object ∈ P.chain (999999997 + 1 + 1) (.ofWellKnown .valueType)
    rw [chain, h.baseType .valueType]
    exact List.mem_cons_of_mem _ List.mem_cons_self

/-- The placeholder leads up to the root of all classes. -/
theorem object_mem_chain_canon : .object ∈ P.chain P.walkLimit .canon := by
  have hlimit : P.walkLimit = 999999998 + 1 + 1 := h.limit
  rw [hlimit]
  exact List.mem_cons_of_mem _ List.mem_cons_self

end WellKnownBases

/-! ## Casting to the root -/

/-- A type is no interface, or it is one that leads up to the root. -/
def SeenAsObject (P : Program) (t : Ty) : Prop :=
  t.isInterface = true → .object ∈ (P.baseChain t).value

/-- The classes of a program are built so that what they extend leads up to the root. -/
def ClassesRooted (P : Program) : Prop :=
  ∀ d, P.HasDecl d → d.flags.interface = false → .object ∈ (P.baseChain (.decl d)).value

/-- Where classes lead up to the root, so does every reference type that is no interface. -/
theorem ClassesRooted.object_mem_chain (hclasses : P.ClassesRooted) (h : P.WellKnownBases)
    (ht : P.HasType t) (hsaturated : t.Saturated) (href : t.isReference = true)
    (hclass : t.isInterface = false) : .object ∈ P.chain P.walkLimit t := by
  cases hd : t.decl? with
  | some d =>
    have hdecl : P.HasDecl d := (over_alphabet_iff.2 ht).decl hd
    have hflags : d.flags.interface = false := by
      rw [← Ty.flags_of_decl? hd]
      exact hclass
    have hobject := hclasses d hdecl hflags
    rw [value_baseChain] at hobject
    refine object_mem_chain_of_decl? hd hobject fun heq => ?_
    -- the root is not generic
    cases heq
    have hargs : t.args = [] := by
      rcases hsaturated.length_args hd with hlength | hargs
      · exact List.length_eq_zero_iff.1 hlength
      · exact hargs.1
    rw [← Ty.named_of_decl? hd, hargs]
    rfl
  | none =>
    cases t with
    | array e r =>
      rw [h.chain_array]
      exact .tail _ (.tail _ (.head _))
    | canon => exact h.object_mem_chain_canon
    | app f a => exact absurd ht.1 (by rw [show f.decl? = none from hd]; exact Bool.false_ne_true)
    | decl d => cases hd
    | _ => cases href

/-- Where classes lead up to the root, a reference type can be cast to it exactly if it is seen as
an object. -/
theorem ClassesRooted.canCast_object_iff (hclasses : P.ClassesRooted) (h : P.WellKnownBases)
    (ht : P.HasType t) (hsaturated : t.Saturated) (href : t.isReference = true) :
    (P.canCast t .object).value = true ↔ P.SeenAsObject t := by
  unfold SeenAsObject
  rw [value_baseChain]
  constructor
  · intro hcast hinterface
    rcases P.mem_chain_of_canCast hcast rfl (by rintro ⟨-, ⟨⟩⟩) with rfl | hmem
    · cases hinterface
    · exact hmem
  · intro hseen
    refine value_canCast_iff.2 (.inl ((P.value_extendsOrImplements rfl).2 (.inr ?_)))
    cases hinterface : t.isInterface with
    | true => exact hseen hinterface
    | false => exact hclasses.object_mem_chain h ht hsaturated href hinterface

/-- Arrays are cast to arrays of objects by their elements only. -/
theorem WellKnownBases.canCast_objects_iff (h : P.WellKnownBases) (href : t.isReference = true) :
    (P.canCast (.array t none) (.array .object none)).value = true ↔
      (P.canCast t .object).value = true := by
  constructor
  · intro hcast
    rcases value_canCast_iff.1 hcast with hdirect | ⟨_, _, _, ⟨⟩, ⟨⟩, -, hcast⟩
    · rw [P.value_extendsOrImplements rfl, h.chain_array] at hdirect
      have heq : t = .object := by
        simpa [Ty.ofWellKnown, Ty.object, eq_comm] using hdirect
      rw [heq]
      exact P.value_canCast_self _
    · exact hcast
  · exact fun hcast => canCast_array href hcast none

end Program

/-! ## Arrays of objects -/

namespace Constructed

variable {P : Program}

/-- If there are but arrays of objects and of another type, then those of objects are sealed unless the
others can be cast to them. -/
theorem sealsType_objects (h : P.WellKnownBases) {t : Ty}
    (hcast : (P.canCast (.array t none) (.array .object none)).value = false) :
    ((ofTypes P [.array t none, .array .object none]).value.sealsType
      (.array .object none)).value = true := by
  have hkey : (key (.array .object none)).value = .array .object none := rfl
  rw [value_sealsType, hkey, mem_keys_ofTypes, mem_unsealed_ofTypes]
  refine ⟨rfl, rfl, ⟨_, .tail _ (.head _), hkey⟩, ?_⟩
  rintro (⟨s, hs, b, hb, heq⟩ | ⟨-, -, s, hs, -, hne, hs'⟩)
  · -- what arrays extend is no array
    obtain ⟨e, rfl⟩ : ∃ e, s = .array e none := by
      rcases List.mem_cons.1 hs with rfl | hs
      · exact ⟨t, rfl⟩
      · exact ⟨.object, List.mem_singleton.1 hs⟩
    rw [h.properBases_array, List.mem_cons, List.mem_singleton] at hb
    rw [value_key] at heq
    rcases hb with rfl | rfl <;> cases heq
  · have hs := (List.mem_cons.1 hs).resolve_right fun hs => hne (List.mem_singleton.1 hs)
    rw [hs, hcast] at hs'
    cases hs'

/-- Where arrays of objects and of other references meet, if what the declared classes extend leads up
to the root.  References of a type can be cast to objects exactly if the type is no interface, or one
that leads up to the root, and so can arrays of them to arrays of objects.  Then arrays of objects are
not sealed as soon as there are arrays of both kinds.  Otherwise they are if there are no others. -/
theorem objects_open_to_references (hP : P.Built) (hclasses : P.ClassesRooted) {t : Ty}
    (ht : P.HasType t) (hsaturated : t.Saturated) (href : t.isReference = true) :
    ((P.canCast t .object).value = true ↔ P.SeenAsObject t) ∧
    ((P.canCast (.array t none) (.array .object none)).value = true ↔ P.SeenAsObject t) ∧
    (t ≠ .object →
      (P.SeenAsObject t → ∀ types, .array t none ∈ types → .array .object none ∈ types →
        ((ofTypes P types).value.sealsType (.array .object none)).value = false) ∧
      (¬ P.SeenAsObject t → ((ofTypes P [.array t none, .array .object none]).value.sealsType
        (.array .object none)).value = true)) := by
  have hbases := hP.wellKnownBases
  have hobject := hclasses.canCast_object_iff hbases ht hsaturated href
  have hobjects := (hbases.canCast_objects_iff href).trans hobject
  refine ⟨hobject, hobjects, fun hne => ⟨fun hseen types hmem _ => ?_, fun hseen => ?_⟩⟩
  · rw [Bool.eq_false_iff]
    intro hsealed
    have heq := eq_of_sealsType_of_canCast hsealed hmem (hobjects.2 hseen)
    exact hne (Ty.array.inj heq).1
  · refine sealsType_objects hbases ?_
    rw [Bool.eq_false_iff]
    exact fun hcast => hseen (hobjects.1 hcast)

end Constructed

/-! ## A register with an interface -/

namespace Register

def entry : TypeDecl :=
  { id := 19, space := "App", name := "IEntry", flags := { interface := true, abstract := true } }

def page : TypeDecl := { id := 20, space := "App", name := "Page", arity := 1 }

def entries : Program :=
  { Program.initial with
    types := Program.initial.types.push { decl := entry, base := some none, overrides := .none }
    names := Program.initial.names.insert entry.fullName }

/-- The program declares an interface, which extends nothing, and a generic class. -/
def program : Program :=
  { entries with
    types := entries.types.push { decl := page, base := some (some .object), overrides := .none }
    names := entries.names.insert page.fullName }

/-- Declarations lead to the program of entries. -/
theorem built_entries : entries.Built := by
  have hname : entry.fullName ∉ Program.initial.names.toList := by
    rw [Program.initial, Roster.mem_toList_insertAll]
    decide
  have hentry := Program.Built.define .initial (Program.define_withDecl (d := entry) rfl rfl hname)
  exact @Program.Built.setBase _ entries (.decl entry) none hentry rfl

/-- Declarations lead to the program of entries and pages. -/
theorem built_program : program.Built := by
  have hname : page.fullName ∉ entries.names.toList := by
    rw [entries, Roster.mem_toList_insert, Program.initial, Roster.mem_toList_insertAll]
    decide
  have hpage := Program.Built.define built_entries
    (Program.define_withDecl (d := page) rfl rfl hname)
  exact @Program.Built.setBase _ program (.decl page) (some .object) hpage rfl

/-- Pages lead up to the root. -/
theorem classesRooted_program : program.ClassesRooted := by
  rintro d ⟨r, hr, rfl⟩ hclass
  rw [Program.value_baseChain]
  have hcases : r ∈ Program.initial.types.toList ∨ r.decl = entry ∨ r.decl = page := by
    simp only [program, entries, Array.toList_push, List.mem_append, List.mem_singleton] at hr
    rcases hr with (hr | rfl) | rfl
    · exact .inl hr
    · exact .inr (.inl rfl)
    · exact .inr (.inr rfl)
  rcases hcases with hr | hr | hr
  · obtain ⟨w, -, rfl⟩ := List.mem_map.1 hr
    exact built_program.wellKnownBases.object_mem_chain w
  · rw [hr] at hclass
    cases hclass
  · rw [hr]
    exact .tail _ (.head _)

/-- Entries are declared. -/
theorem hasDecl_entry : program.HasDecl entry := by
  refine ⟨{ decl := entry, base := some none, overrides := .none }, ?_, rfl⟩
  simp [program, entries]

/-- Pages are declared. -/
theorem hasDecl_page : program.HasDecl page := by
  refine ⟨{ decl := page, base := some (some .object), overrides := .none }, ?_, rfl⟩
  simp [program]

/-- Pages of entries, which are known by their interface. -/
def entryPage : Ty :=
  .app (.decl page) (.decl entry)

/-- A page of entries can be cast to an object, though its entries cannot. -/
theorem objects_open_to_pages :
    (program.Built ∧ program.ClassesRooted ∧ program.HasType entryPage ∧ entryPage.Saturated ∧
      entryPage.isReference = true) ∧
    (program.canCast entryPage .object).value = true ∧
    (program.canCast (.array entryPage none) (.array .object none)).value = true ∧
    ((Constructed.ofTypes program [.array entryPage none, .array .object none]).value.sealsType
      (.array .object none)).value = false := by
  have ht : program.HasType entryPage := ⟨rfl, hasDecl_page, hasDecl_entry⟩
  have hsaturated : entryPage.Saturated := ⟨.inr rfl, .inl rfl⟩
  have hseen : program.SeenAsObject entryPage := nofun
  obtain ⟨hobject, hobjects, hsealed⟩ := Constructed.objects_open_to_references built_program
    classesRooted_program ht hsaturated rfl
  refine ⟨⟨built_program, classesRooted_program, ht, hsaturated, rfl⟩, hobject.2 hseen,
    hobjects.2 hseen, ?_⟩
  exact (hsealed nofun).1 hseen _ (.head _) (.tail _ (.head _))

/-- An entry cannot be cast to an object. -/
theorem canCast_entry : (program.canCast (.decl entry) .object).value = false := by
  have hchain : program.chain program.walkLimit (.decl entry) = [.decl entry] := rfl
  rw [Bool.eq_false_iff]
  intro hcast
  have hmem := program.mem_chain_of_canCast hcast rfl nofun
  rw [hchain, List.mem_singleton] at hmem
  rcases hmem with heq | heq <;> cases heq

/-- An entry cannot be cast to an object, and arrays of objects are sealed next to arrays of entries. -/
theorem exists_interface_not_object : ∃ (P : Program) (t : Ty), P.Built ∧ P.ClassesRooted ∧
    P.HasType t ∧ t.Saturated ∧ t.isReference = true ∧ t ≠ .canon ∧ t ≠ .object ∧
    (P.canCast t .object).value = false ∧
    (P.canCast (.array t none) (.array .object none)).value = false ∧
    ((Constructed.ofTypes P [.array t none, .array .object none]).value.sealsType
      (.array .object none)).value = true := by
  have hbases := built_program.wellKnownBases
  have hobjects : (program.canCast (.array (.decl entry) none) (.array .object none)).value = false := by
    rw [Bool.eq_false_iff, Ne, hbases.canCast_objects_iff rfl, canCast_entry]
    exact Bool.false_ne_true
  exact ⟨program, .decl entry, built_program, classesRooted_program, hasDecl_entry, .inl rfl, rfl,
    nofun, nofun, canCast_entry, hobjects, Constructed.sealsType_objects hbases hobjects⟩

end Register

end AheadOfTime
