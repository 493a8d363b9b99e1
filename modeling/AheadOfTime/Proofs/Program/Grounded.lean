import AheadOfTime.Proofs.Program.Vocabulary

/-!
# Programs that speak only of what they declare

A program is grounded if its declarations and bodies mention nothing but types and methods that it
declares.  Whatever is asked about such types and methods is then answered by types and methods that
the program declares too: what it declares is a vocabulary.
-/

set_option autoImplicit false

namespace AheadOfTime

/-! ## What a program has -/

namespace Program

variable (P : Program)

/-- The program declares a type. -/
def HasDecl (d : TypeDecl) : Prop :=
  ∃ r ∈ P.types.toList, r.decl = d

/-- A type that is put together from types that the program declares. -/
def HasType (t : Ty) : Prop :=
  t.FormedFrom P.HasDecl

/-- A method that the program declares, seen through types that it has. -/
structure HasMethod (m : Method) : Prop where
  declared : P.Declares m
  owner : P.HasType m.owner
  args : ∀ a ∈ m.args, P.HasType a

/-- A signature whose types the program has. -/
def HasSignature (s : Signature) : Prop :=
  P.HasType s.result ∧ ∀ p ∈ s.parameters, P.HasType p

/-- What the types of the program are made of. -/
def alphabet : Alphabet :=
  .formed P.HasDecl

variable {P} {t : Ty} {m : Method}

/-- The types over the alphabet of a program are those that it has. -/
theorem over_alphabet_iff : t.Over P.alphabet ↔ P.HasType t :=
  Ty.over_formed_iff

/-- The types and methods that the program has are a vocabulary over this alphabet. -/
theorem vocabulary_eq : P.alphabet.vocabulary P.Declares = ⟨P.HasType, P.HasMethod⟩ := by
  have hmethod : ∀ m, P.Declares m ∧ P.HasType m.owner ∧ (∀ a ∈ m.args, P.HasType a) ↔
      P.HasMethod m := fun m => ⟨fun h => ⟨h.1, h.2.1, h.2.2⟩, fun h => ⟨h.1, h.2, h.3⟩⟩
  simp only [Alphabet.vocabulary, over_alphabet_iff, hmethod]

/-- A program has a type if it has what is put in place of its parameters. -/
theorem HasType.subst (ht : P.HasType t) {σ : Bindings} (hσ : ∀ k, ∀ a ∈ σ.args k, P.HasType a) :
    P.HasType (t.subst σ) := by
  rw [← over_alphabet_iff] at ht ⊢
  exact ht.subst fun k a ha => over_alphabet_iff.2 (hσ k a ha)

/-- A program has a signature if it has what is put in place of its parameters. -/
theorem HasSignature.subst {s : Signature} (hs : P.HasSignature s) {σ : Bindings}
    (hσ : ∀ k, ∀ a ∈ σ.args k, P.HasType a) : P.HasSignature (s.subst σ) := by
  refine ⟨hs.1.subst hσ, fun p hp => ?_⟩
  obtain ⟨q, hq, rfl⟩ := List.mem_map.1 hp
  exact (hs.2 q hq).subst hσ

/-- The canonical form of a declared method is declared. -/
theorem Declares.canonical (h : P.Declares m) : P.Declares m.canonical := by
  obtain ⟨d, hd, hm⟩ := h
  exact ⟨d, (Ty.decl?_canonical m.owner).trans hd, hm⟩

end Program

/-- The operands of an instruction refer to what a program has. -/
def Instruction.Within (P : Program) : Instruction → Prop
  | .call m | .newobj m | .ldftn m | .ldvirtftn m => m.All P.HasMethod
  | .callvirt m receiver => m.All P.HasMethod ∧ ∀ t ∈ receiver, t.All P.HasType
  | .constrained t m => t.All P.HasType ∧ m.All P.HasMethod
  | .newarr t | .box t | .unboxAny t | .castclass t | .isinst t => t.All P.HasType
  | .ldtoken (.type t) => t.All P.HasType
  | .ldtoken (.method m) => m.All P.HasMethod
  | .ldtoken (.field f) => f.All fun f => P.HasDecl f.owner
  | .ldfld f | .ldflda f | .stfld f | .ldsfld f | .ldsflda f | .stsfld f =>
    f.All fun f => P.HasDecl f.owner
  | _ => True

namespace Program

/-- What is declared about a type refers to what a program has. -/
structure HasRecord (P : Program) (r : TypeRecord) : Prop where
  base : ∀ b ∈ r.base.join, P.HasType b
  interfaces : ∀ i ∈ r.interfaces.getD [], P.HasType i
  signatures : ∀ m ∈ r.methods, P.HasSignature m.signature
  overrides : ∀ o ∈ r.overrides.declared, P.HasMethod o.decl ∧ P.HasMethod o.body

/-- What declarations and bodies refer to is declared by the program. -/
structure Grounded (P : Program) : Prop where
  wellKnown : ∀ w : WellKnown, P.HasDecl w.decl
  records : ∀ r ∈ P.types.toList, P.HasRecord r
  bodies : ∀ m body, P.body? m = some body → ∀ i ∈ body, i.Within P

section WithTypes

variable {P : Program} (types : List TypeRecord) (htypes : P.types = (withTypes types).types)
include htypes

/-- A program with given further types declares all well-known ones. -/
theorem hasDecl_wellKnown_of_withTypes (w : WellKnown) : P.HasDecl w.decl := by
  have hw : w ∈ WellKnown.all := by cases w <;> decide
  have hrecord : _ ∈ initial.types.toList := List.mem_map_of_mem hw
  exact ⟨_, htypes ▸ mem_types_withTypes.2 (.inl hrecord), rfl⟩

/-- In a program with given further types only these and the bodies have to be looked at. -/
theorem grounded_of_withTypes (hrecords : ∀ r ∈ types, P.HasRecord r)
    (hbodies : ∀ m body, P.body? m = some body → ∀ i ∈ body, i.Within P) : P.Grounded := by
  have hwellKnown := hasDecl_wellKnown_of_withTypes types htypes
  refine ⟨hwellKnown, fun r hr => ?_, hbodies⟩
  rw [htypes, mem_types_withTypes] at hr
  rcases hr with hr | hr
  · obtain ⟨w, -, rfl⟩ := List.mem_map.1 hr
    constructor
    · intro b hb
      obtain ⟨w', -, rfl⟩ := Option.map_eq_some_iff.1 hb
      exact hwellKnown w'
    all_goals
      intro x hx
      cases hx
  · exact hrecords r hr

end WithTypes

namespace Grounded

variable {P : Program} (hP : P.Grounded)
include hP

/-- The types in the signature of a method are types of the program. -/
theorem signature {m : Method} (hm : P.HasMethod m) : P.HasSignature m.signature := by
  obtain ⟨⟨d, -, hdecl⟩, howner, hargs⟩ := hm
  have hdeclared : P.HasSignature m.decl.signature := by
    rcases record_mem_or_eq d with hr | hr
    · exact (hP.records _ hr).signatures m.decl hdecl
    · rw [hr] at hdecl
      cases hdecl
  have honOwner := hdeclared.subst (σ := { ofType := m.owner.args }) fun k a ha => by
    cases k with
    | type => exact over_alphabet_iff.1 ((over_alphabet_iff.2 howner).args a ha)
    | method => cases ha
  unfold Method.signature
  dsimp only
  split
  · exact honOwner
  · refine honOwner.subst fun k a ha => ?_
    cases k with
    | type => cases ha
    | method => exact hargs a ha

/-- What the program has is a vocabulary that nothing leads out of. -/
theorem describes : P.alphabet.Describes P.Declares P where
  array := hP.wellKnown .array
  object := hP.wellKnown .object
  definition hm := hm
  replaceArgs hm _ := hm
  subst σ hm := hm.subst σ
  methods m hm := (P.mem_methods.1 hm).1
  base r hr b hb := over_alphabet_iff.2 ((hP.records r hr).base b hb)
  interfaces r hr i hi := over_alphabet_iff.2 ((hP.records r hr).interfaces i hi)
  overrides r hr o ho := by
    rw [vocabulary_eq]
    exact (hP.records r hr).overrides o ho

end Grounded

end Program

end AheadOfTime
