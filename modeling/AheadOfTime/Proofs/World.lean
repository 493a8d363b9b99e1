import AheadOfTime.Program.Dispatch
import AheadOfTime.Proofs.Program.Coherent
import AheadOfTime.World
import Mathlib.Logic.Relation

/-!
# Worlds that can be reached

A world starts with the well-known types.  From there on types, methods and whatever is said about
them are declared, and questions are asked: types and methods are made of others, arguments are filled
in, canonical forms are taken, hierarchies are followed and methods are resolved.  All of that speaks
of what the program declares.

Then the program stays coherent, and the catalog lists nothing but what the program has, everything
after what it is built from.
-/

set_option autoImplicit false

namespace AheadOfTime

/-- The definition of a type is declared as the type is. -/
theorem Ty.decl?_definition (t : Ty) : t.definition.decl? = t.decl? := by
  induction t with
  | app f a ihf _ => exact ihf
  | _ => rfl

/-! ## Questions -/

namespace Program

/-- The questions that can be asked about what a program has. -/
inductive Asks (P : Program) : (α : Type) → Tracked α → Prop
  -- making types and methods of others
  | applyType {t u : Ty} {args : List Ty} : P.HasType t → (∀ a ∈ args, P.HasType a) →
      t.apply args = .ok u → P.Asks Ty (needType u)
  | array {t : Ty} : P.HasType t → P.Asks Ty (needType (.array t none))
  | arrayOfRank {t u : Ty} {rank : Nat} : P.HasType t → t.arrayOfRank rank = .ok u →
      P.Asks Ty (needType u)
  | pointer {t : Ty} : P.HasType t → P.Asks Ty (needType (.pointer t))
  | byRef {t : Ty} : P.HasType t → P.Asks Ty (needType (.byRef t))
  | param (k : ParamKind) (i : Nat) : P.Asks Ty (needType (.param k i))
  | onOwner {m n : Method} {owner : Ty} : P.HasMethod m → P.HasType owner → m.on owner = .ok n →
      P.Asks Method (needMethod n)
  | applyMethod {m n : Method} {args : List Ty} : P.HasMethod m → (∀ a ∈ args, P.HasType a) →
      m.apply args = .ok n → P.Asks Method (needMethod n)
  -- filling in arguments
  | substType {t : Ty} {σ : Bindings} : P.HasType t → (∀ k, ∀ a ∈ σ.args k, P.HasType a) →
      P.Asks Ty (needType (t.subst σ))
  | substMethod {m : Method} {σ : Bindings} : P.HasMethod m → (∀ k, ∀ a ∈ σ.args k, P.HasType a) →
      P.Asks Method (needMethod (m.subst σ))
  -- canonical forms
  | canonicalType {t : Ty} : P.HasType t → P.Asks Ty t.canonicalForm
  | canonicalMethod {m : Method} : P.HasMethod m → P.Asks Method m.canonicalForm
  | isShared {m : Method} : P.HasMethod m → P.Asks Bool m.isShared
  | sameTypes {t u : Ty} : P.HasType t → P.HasType u → P.Asks Bool (t.sameUpToCanon u)
  | sameMethods {m n : Method} : P.HasMethod m → P.HasMethod n → P.Asks Bool (m.sameUpToCanon n)
  -- the hierarchy
  | baseType {t : Ty} : P.HasType t → P.Asks (Option Ty) (P.baseType t)
  | baseChain {t : Ty} : P.HasType t → P.Asks (List Ty) (P.baseChain t)
  | interfacesOf {t : Ty} : P.HasType t → P.Asks (List Ty) (P.interfacesOf t)
  | interfaceClosure {t : Ty} : P.HasType t → P.Asks (List Ty) (P.interfaceClosure t)
  | allInterfaces {t : Ty} : P.HasType t → P.Asks (List Ty) (P.allInterfaces t)
  | methodsOf {t : Ty} : P.HasType t → P.Asks (List Method) (P.methodsOf t)
  | findMethod {t : Ty} {name : String} : P.HasType t → P.Asks (Option Method) (P.findMethod? t name)
  | classConstructor {t : Ty} : P.HasType t → P.Asks (Option Method) (P.classConstructor? t)
  -- casting
  | isSubclassOf {t u : Ty} : P.HasType t → P.HasType u → P.Asks Bool (P.isSubclassOf t u)
  | implements {t u : Ty} : P.HasType t → P.HasType u → P.Asks Bool (P.implements t u)
  | canCast {t u : Ty} : P.HasType t → P.HasType u → P.Asks Bool (P.canCast t u)
  | derivesUpToCanon {t u : Ty} : P.HasType t → P.HasType u → P.Asks Bool (P.derivesUpToCanon t u)
  -- resolving methods
  | overridesOf {t : Ty} : P.HasType t →
      P.Asks (Except Diagnostic (List Override)) (P.overridesOf t).run
  | overridesNamed {t : Ty} {isClosed : TypeDecl → Bool} {name : String} : P.HasType t →
      P.Asks (Except Diagnostic (List Override)) (P.overridesNamed isClosed t name).run
  | slotOf {m : Method} : P.HasMethod m → P.Asks (Except Diagnostic Method) (P.slotOf m).run
  | slotsOf {t : Ty} : P.HasType t → P.Asks (Except Diagnostic (List Method)) (P.slotsOf t).run
  | classTarget {m : Method} {t : Ty} : P.HasMethod m → P.HasType t →
      P.Asks (Except Diagnostic Method) (P.classTarget m t).run
  | interfaceTarget {m : Method} {t : Ty} : P.HasMethod m → P.HasType t →
      P.Asks (Except Diagnostic (Option Method)) (P.interfaceTarget? m t).run
  | resolve {m : Method} {t : Ty} : P.HasMethod m → P.HasType t →
      P.Asks (Except Diagnostic Method) (P.resolve m t).run

/-! ### What is made of what a program has -/

variable {P : Program}

/-- A type of a program applied to types of the program is one of its types. -/
theorem HasType.apply {t u : Ty} {args : List Ty} (ht : P.HasType t) (hargs : ∀ a ∈ args, P.HasType a)
    (h : t.apply args = .ok u) : P.HasType u := by
  obtain ⟨d, hd, h⟩ := bind_eq_ok.1 h
  rw [declared_eq_ok hd] at ht
  split at h
  · cases h
  · next harity =>
    cases h
    have hlength : args.length = d.arity := by
      by_contra hne
      exact harity (by simp [Ne.symm hne])
    rw [← over_alphabet_iff] at ht ⊢
    exact .named ht hlength fun a ha => over_alphabet_iff.2 (hargs a ha)

/-- Arrays of a type of a program are types of the program, whatever their rank. -/
theorem HasType.arrayOfRank {t u : Ty} {rank : Nat} (ht : P.HasType t)
    (h : t.arrayOfRank rank = .ok u) : P.HasType u := by
  unfold Ty.arrayOfRank at h
  split at h
  · next hrank =>
    cases h
    refine ⟨fun hzero => ?_, ht⟩
    cases hzero
    cases hrank
  · cases h

/-- A method of a program is one of its methods on every instantiation of its owner. -/
theorem HasMethod.onOwner {m : Method} {owner : Ty} (hm : P.HasMethod m) (howner : P.HasType owner)
    (hsame : owner.decl? = m.owner.decl?) : P.HasMethod ⟨m.decl, owner, []⟩ := by
  obtain ⟨d, hd, hdecl⟩ := hm.declared
  exact ⟨⟨d, hsame.trans hd, hdecl⟩, howner, List.forall_mem_nil _⟩

/-- Moving a method of a program to another owner gives a method of the program. -/
theorem HasMethod.on {m n : Method} {owner : Ty} (hm : P.HasMethod m) (howner : P.HasType owner)
    (h : m.on owner = .ok n) : P.HasMethod n := by
  unfold Method.on at h
  split at h
  · cases h
  · split at h
    · cases h
    · next hsame =>
      cases h
      refine hm.onOwner howner ?_
      rw [← owner.decl?_definition, not_not.1 hsame]

/-- A method of a program applied to types of the program is one of its methods. -/
theorem HasMethod.apply {m n : Method} {args : List Ty} (hm : P.HasMethod m)
    (hargs : ∀ a ∈ args, P.HasType a) (h : m.apply args = .ok n) : P.HasMethod n := by
  unfold Method.apply at h
  split at h
  · cases h
  · cases h
    exact ⟨hm.declared, hm.owner, hargs⟩

/-- A question about what a program has needs only what it has. -/
theorem Asks.notes (hP : P.Coherent) {α : Type} {q : Tracked α} (h : P.Asks α q) :
    Notes (Vocabulary.HasEntity ⟨P.HasType, P.HasMethod⟩) q := by
  have hV := hP.covers
  have honOwner : ∀ {m : Method} {u : Ty}, P.HasMethod m → P.HasType u →
      u.canonical = m.owner.canonical → P.HasMethod ⟨m.decl, u, []⟩ := by
    intro m u hm hu hsame
    refine hm.onOwner hu ?_
    rw [← u.decl?_canonical, hsame, Ty.decl?_canonical]
  cases h with
  | applyType ht hargs hu => exact .needType (ht.apply hargs hu)
  | array ht => exact .needType ⟨nofun, ht⟩
  | arrayOfRank ht hu => exact .needType (ht.arrayOfRank hu)
  | pointer ht => exact .needType ht
  | byRef ht => exact .needType ht
  | param k i => exact .needType trivial
  | onOwner hm howner hn => exact .needMethod (hm.on howner hn)
  | applyMethod hm hargs hn => exact .needMethod (hm.apply hargs hn)
  | substType ht hσ => exact .needType (ht.subst hσ)
  | substMethod hm hσ => exact .needMethod (hV.methodSubst hm hσ)
  | canonicalType ht => exact Vocabulary.notes_canonicalForm ht
  | canonicalMethod hm => exact Vocabulary.notes_methodCanonicalForm hm
  | isShared hm => exact Vocabulary.notes_isShared hm
  | sameTypes ht hu => exact Vocabulary.notes_typesSameUpToCanon ht hu
  | sameMethods hm hn => exact Vocabulary.notes_methodsSameUpToCanon hm hn
  | baseType ht => exact hV.notes_baseType ht
  | baseChain ht => exact hV.notes_baseChain ht
  | interfacesOf ht => exact hV.notes_interfacesOf ht
  | interfaceClosure ht => exact hV.notes_interfaceClosure ht
  | allInterfaces ht => exact hV.notes_allInterfaces ht
  | methodsOf ht => exact hV.notes_methodsOf ht
  | findMethod ht => exact hV.notes_findMethod? ht _
  | classConstructor ht => exact hV.notes_classConstructor? ht
  | isSubclassOf ht _ => exact hV.notes_isSubclassOf ht _
  | implements ht _ => exact hV.notes_implements ht _
  | canCast ht _ => exact hV.notes_canCast ht (fun he => he.2) _
  | derivesUpToCanon ht hu => exact hV.notes_derivesUpToCanon ht hu
  | overridesOf ht => exact hV.tries_overridesOf ht
  | overridesNamed ht => exact hV.tries_overridesNamed ht _ _
  | slotOf hm => exact hV.tries_slotOf hm
  | slotsOf ht => exact hV.tries_slotsOf ht
  | classTarget hm ht => exact hV.tries_classTarget hm ht
  | interfaceTarget hm ht => exact hV.tries_interfaceTarget? honOwner hm ht
  | resolve hm ht => exact hV.tries_resolve honOwner hm ht

end Program

/-! ## Worlds -/

namespace World

/-- One step of a world: a declaration, or a question.  A declaration that is refused is no step, since
it changes nothing. -/
inductive Step (w : World) : World → Prop
  | define {space name : String} {flags : TypeFlags} {arity : Nat} {t : Ty} {w' : World} :
      w.define space name flags arity = .ok (t, w') → w.Step w'
  | declare {s : TypeSketch} {t : Ty} {w' : World} : (∀ b ∈ s.baseType, w.program.HasType b) →
      (∀ i ∈ s.interfaces, w.program.HasType i) → w.declare s = .ok (t, w') → w.Step w'
  | setBase {t : Ty} {base : Option Ty} {w' : World} : w.program.HasType t →
      (∀ b ∈ base, w.program.HasType b) → w.setBase t base = .ok w' → w.Step w'
  | setInterfaces {t : Ty} {interfaces : List Ty} {w' : World} : w.program.HasType t →
      (∀ i ∈ interfaces, w.program.HasType i) → w.setInterfaces t interfaces = .ok w' → w.Step w'
  | addMethod {owner : Ty} {name : String} {signature : Signature} {flags : MethodFlags} {m : Method}
      {w' : World} : w.program.HasType owner → w.program.HasSignature signature →
      w.addMethod owner name signature flags = .ok (m, w') → w.Step w'
  | addField {owner type : Ty} {name : String} {flags : FieldFlags} {f : Field} {w' : World} :
      w.program.HasType owner → w.program.HasType type →
      w.addField owner name type flags = .ok (f, w') → w.Step w'
  | addOverride {owner : Ty} {decl body : Method} {w' : World} : w.program.HasType owner →
      w.program.HasMethod decl → w.program.HasMethod body →
      w.addOverride owner decl body = .ok w' → w.Step w'
  | setBody {m : Method} {body : Body} : w.program.HasMethod m →
      (∀ i ∈ body, i.Within w.program) → w.Step (w.setBody m body)
  | ask {α : Type} {q : Tracked α} : w.program.Asks α q → w.Step (w.ask q).2
  | typeNumber {t : Ty} : w.program.HasType t → w.Step (w.typeNumber t).2
  | methodNumber {m : Method} : w.program.HasMethod m → w.Step (w.methodNumber m).2

/-- The worlds that steps lead to from another one. -/
abbrev Steps : World → World → Prop := Relation.ReflTransGen Step

/-- The worlds that steps lead to. -/
def Reachable (w : World) : Prop := Steps {} w

/-- The program is coherent, and the catalog lists what the program has. -/
structure Sound (w : World) : Prop where
  program : w.program.Coherent
  catalog : w.catalog.Sound ⟨w.program.HasType, w.program.HasMethod⟩

/-- The world in which nothing was done is sound. -/
theorem sound_initial : ({} : World).Sound := by
  have hP := Program.coherent_initial
  refine ⟨hP, ((Catalog.sound_default _).addTypes hP.listable ?_).1.sound⟩
  intro t ht
  rcases List.mem_append.1 ht with ht | ht
  · obtain ⟨w, -, rfl⟩ := List.mem_map.1 ht
    exact hP.grounded.wellKnown w
  · rw [List.mem_singleton.1 ht]
    trivial

/-- Growing the program keeps what the catalog lists. -/
theorem Sound.extend {w : World} (h : w.Sound) {P : Program} (hext : w.program.Extends P) :
    w.catalog.Sound ⟨P.HasType, P.HasMethod⟩ :=
  h.catalog.mono (fun _ => hext.hasType) fun _ => hext.hasMethod

/-- A step leads from a sound world to a sound one that lists the same in the same places. -/
theorem Sound.step {w w' : World} (h : w.Sound) (hstep : w.Step w') :
    w'.Sound ∧ w.catalog.Extends w'.catalog := by
  -- of declarations, only those of types and methods enter something
  cases hstep with
  | define hdefine =>
    obtain ⟨⟨d, P⟩, hP, hw⟩ := bind_eq_ok.1 hdefine
    cases hw
    obtain ⟨hP, hext, hd⟩ := h.program.define hP
    have hgrown := ((h.extend hext).addType hP.listable (t := .decl d) hd).1
    exact ⟨⟨hP, hgrown.sound⟩, hgrown.kept⟩
  | declare hbase hinterfaces hdeclare =>
    obtain ⟨⟨d, P⟩, hP, hw⟩ := bind_eq_ok.1 hdeclare
    cases hw
    obtain ⟨hP, hext, hd⟩ := h.program.declare hbase hinterfaces hP
    have hgrown := ((h.extend hext).addType hP.listable (t := .decl d) hd).1
    exact ⟨⟨hP, hgrown.sound⟩, hgrown.kept⟩
  | setBase _ hbase hset =>
    obtain ⟨P, hP, hw⟩ := bind_eq_ok.1 hset
    cases hw
    obtain ⟨hP, hext⟩ := h.program.setBase hbase hP
    exact ⟨⟨hP, h.extend hext⟩, .refl _⟩
  | setInterfaces _ hinterfaces hset =>
    obtain ⟨P, hP, hw⟩ := bind_eq_ok.1 hset
    cases hw
    obtain ⟨hP, hext⟩ := h.program.setInterfaces hinterfaces hP
    exact ⟨⟨hP, h.extend hext⟩, .refl _⟩
  | addMethod howner hsignature hadd =>
    obtain ⟨⟨m, P⟩, hP, hw⟩ := bind_eq_ok.1 hadd
    cases hw
    obtain ⟨hP, hext, hm⟩ := h.program.addMethod howner hsignature hP
    have hgrown := ((h.extend hext).addMethod hP.listable hm).1
    exact ⟨⟨hP, hgrown.sound⟩, hgrown.kept⟩
  | addField _ _ hadd =>
    obtain ⟨⟨f, P⟩, hP, hw⟩ := bind_eq_ok.1 hadd
    cases hw
    obtain ⟨hP, hext⟩ := h.program.addField hP
    exact ⟨⟨hP, h.extend hext⟩, .refl _⟩
  | addOverride _ hdecl hbody hadd =>
    obtain ⟨P, hP, hw⟩ := bind_eq_ok.1 hadd
    cases hw
    obtain ⟨hP, hext⟩ := h.program.addOverride hdecl hbody hP
    exact ⟨⟨hP, h.extend hext⟩, .refl _⟩
  | setBody _ hbody =>
    obtain ⟨hP, hext⟩ := h.program.setBody _ hbody
    exact ⟨⟨hP, h.extend hext⟩, .refl _⟩
  | ask hq =>
    have hgrown := h.catalog.run h.program.listable (hq.notes h.program)
    exact ⟨⟨h.program, hgrown.sound⟩, hgrown.kept⟩
  | typeNumber ht =>
    have hgrown := (h.catalog.addType h.program.listable ht).1
    exact ⟨⟨h.program, hgrown.sound⟩, hgrown.kept⟩
  | methodNumber hm =>
    have hgrown := (h.catalog.addMethod h.program.listable hm).1
    exact ⟨⟨h.program, hgrown.sound⟩, hgrown.kept⟩

/-- Whatever is done, a sound world stays sound and keeps what it lists. -/
theorem Sound.steps {w w' : World} (h : w.Sound) (hsteps : w.Steps w') :
    w'.Sound ∧ w.catalog.Extends w'.catalog := by
  induction hsteps with
  | refl => exact ⟨h, .refl _⟩
  | tail _ hstep ih =>
    obtain ⟨hsound, hext⟩ := ih.1.step hstep
    exact ⟨hsound, ih.2.trans hext⟩

/-- Every world that can be reached is sound. -/
theorem Reachable.sound {w : World} (h : w.Reachable) : w.Sound := (sound_initial.steps h).1

/-- A step declares something, or leaves the program as it is. -/
theorem Step.built {w w' : World} (h : w.Step w') (hw : w.program.Built) : w'.program.Built := by
  cases h with
  | define hdefine =>
    obtain ⟨⟨d, P⟩, hP, hw'⟩ := bind_eq_ok.1 hdefine
    cases hw'
    exact .define hw hP
  | declare _ _ hdeclare =>
    obtain ⟨⟨d, P⟩, hP, hw'⟩ := bind_eq_ok.1 hdeclare
    cases hw'
    obtain ⟨⟨e, P₁⟩, hdefine, hP⟩ := bind_eq_ok.1 hP
    obtain ⟨P₂, hbase, hP⟩ := bind_eq_ok.1 hP
    obtain ⟨P₃, hinterfaces, hP⟩ := bind_eq_ok.1 hP
    cases hP
    exact .setInterfaces (.setBase (.define hw hdefine) hbase) hinterfaces
  | setBase _ _ hset =>
    obtain ⟨P, hP, hw'⟩ := bind_eq_ok.1 hset
    cases hw'
    exact .setBase hw hP
  | setInterfaces _ _ hset =>
    obtain ⟨P, hP, hw'⟩ := bind_eq_ok.1 hset
    cases hw'
    exact .setInterfaces hw hP
  | addMethod _ _ hadd =>
    obtain ⟨⟨m, P⟩, hP, hw'⟩ := bind_eq_ok.1 hadd
    cases hw'
    exact .addMethod hw hP
  | addField _ _ hadd =>
    obtain ⟨⟨f, P⟩, hP, hw'⟩ := bind_eq_ok.1 hadd
    cases hw'
    exact .addField hw hP
  | addOverride _ hdecl _ hadd =>
    obtain ⟨P, hP, hw'⟩ := bind_eq_ok.1 hadd
    cases hw'
    exact .addOverride hw hdecl.declared hP
  | setBody _ _ => exact .setBody hw
  | ask _ | typeNumber _ | methodNumber _ => exact hw

/-- The program of a world that can be reached is built by declarations. -/
theorem Reachable.built {w : World} (h : w.Reachable) : w.program.Built := by
  induction h with
  | refl => exact .initial
  | tail _ hstep ih => exact hstep.built ih

end World

end AheadOfTime
