import AheadOfTime.Declaration
import AheadOfTime.Proofs.Roster
import AheadOfTime.Proofs.Program.Dispatch

/-!
# Implementations of interface methods

A type that implements an interface for several arguments has an implementation of each method for
each of them.  One would want that a call leads to the one for the arguments that it names.  A type
is searched up to canonical form, though, where all reference types look alike: it answers with the
first implementation that it has for any of them.
-/

set_option autoImplicit false

namespace AheadOfTime

/-- The first element of a kind is the first of every narrower kind that it is of. -/
theorem find?_of_imp {α : Type} {p q : α → Bool} {l : List α} {a : α} (h : l.find? p = some a)
    (hq : q a = true) (himp : ∀ b, q b = true → p b = true) : l.find? q = some a := by
  obtain ⟨-, before, after, hl, hbefore⟩ := List.find?_eq_some_iff_append.1 h
  refine List.find?_eq_some_iff_append.2 ⟨hq, before, after, hl, fun b hb => ?_⟩
  have hp := hbefore b hb
  cases hqb : q b with
  | false => rfl
  | true => simp [himp b hqb] at hp

namespace Program

variable (P : Program)

/-! ## Exact implementations -/

/-- The method of a type, not counting its base types, that implements exactly this interface
method: the body of an explicit override of it, or else, if the type lists its owner, a virtual
method with the same name and signature. -/
def exactImplementation? (d : Method) (u : Ty) : Except Diagnostic (Option Method) :=
  outcome (P.overridesOf u) >>= fun overrides =>
    match overrides.find? fun o => o.decl.definition == d with
    | some o => .ok (some o.body)
    | none =>
      if d.owner ∈ (P.interfaceClosure u).value then
        .ok ((P.methods u).find? fun c => c.isVirtual && c.sameNameAndSignature d)
      else .ok none

/-- The method that a type answers for when it is asked for an interface method: of those with the
same canonical form the first that it overrides explicitly, or else the one of the first interface
that it lists. -/
def standIn (d : Method) (u : Ty) : Except Diagnostic Method :=
  outcome (P.overridesOf u) >>= fun overrides =>
    match overrides.find? fun o => o.decl.definition.canonical == d.canonical with
    | some o => .ok o.decl.definition
    | none =>
      match (P.interfaceClosure u).value.find? fun i => i.canonical == d.owner.canonical with
      | some listed => .ok ⟨d.decl, listed, []⟩
      | none => .ok d

variable {P} {d e : Method} {u : Ty}

/-- The method that a type answers for has the canonical form of the one that it is asked for. -/
theorem canonical_standIn (hd : d.args = []) (h : P.standIn d u = .ok e) :
    e.canonical = d.canonical := by
  obtain ⟨overrides, -, h⟩ := bind_eq_ok.1 h
  split at h
  · next o ho =>
    cases h
    have hsame := List.find?_some ho
    exact eq_of_beq hsame
  · split at h
    · next listed hlisted =>
      cases h
      have hsame := List.find?_some hlisted
      have howner : listed.canonical = d.owner.canonical := eq_of_beq hsame
      simp [Method.canonical, howner, hd]
    · cases h
      rfl

/-- Nothing stands in for a method that shares its code with no other. -/
theorem standIn_eq_self (hd : d.args = []) (hshared : d.canonical.hasCanon = false)
    (h : P.standIn d u = .ok e) : e = d := by
  have hsame := canonical_standIn hd h
  have hself : e.canonical = e := Method.canonical_eq_self (hsame ▸ hshared)
  rw [← hself, hsame, Method.canonical_eq_self hshared]

/-- A type implements an interface method by what implements the method that stands in for it. -/
theorem outcome_implementation?_standIn (hd : d.args = []) :
    outcome (P.implementation? d u) =
      P.standIn d u >>= fun e => P.exactImplementation? e u := by
  rw [outcome_implementation?, standIn, bind_assoc]
  cases hoverrides : outcome (P.overridesOf u) with
  | error diagnostic => rfl
  | ok overrides =>
    rw [ok_bind, ok_bind]
    cases hexplicit : overrides.find? fun o => o.decl.definition.canonical == d.canonical with
    | some o =>
      have hfirst : overrides.find? (fun p => p.decl.definition == o.decl.definition) = some o := by
        refine find?_of_imp hexplicit (beq_self_eq_true _) fun p hp => ?_
        have hsame := List.find?_some hexplicit
        rwa [eq_of_beq hp]
      simp [exactImplementation?, hoverrides, hfirst]
    | none =>
      -- An override of one of these methods would be one of a method with the canonical form.
      have hnone : ∀ e : Method, e.canonical = d.canonical →
          overrides.find? (fun p => p.decl.definition == e) = none := by
        intro e he
        rw [List.find?_eq_none] at hexplicit ⊢
        intro o ho hoe
        refine hexplicit o ho ?_
        rw [eq_of_beq hoe, he]
        exact beq_self_eq_true _
      cases hlisted : (P.interfaceClosure u).value.find? fun i =>
          i.canonical == d.owner.canonical with
      | some listed =>
        have hsame := List.find?_some hlisted
        have hform : (⟨d.decl, listed, []⟩ : Method).canonical = d.canonical := by
          simp [Method.canonical, eq_of_beq hsame, hd]
        simp [exactImplementation?, hoverrides, hnone _ hform, List.mem_of_find?_eq_some hlisted]
      | none =>
        have habsent : d.owner ∉ (P.interfaceClosure u).value := by
          intro hmem
          exact List.find?_eq_none.1 hlisted _ hmem (beq_self_eq_true _)
        simp [exactImplementation?, hoverrides, hnone d rfl, habsent]

/-- A type answers for the interface method that it is asked for if what stands in for it has the
same implementation there. -/
theorem implementation?_eq_exact (hd : d.args = [])
    (hstand : ∀ e, P.standIn d u = .ok e →
      P.exactImplementation? e u = P.exactImplementation? d u) :
    outcome (P.implementation? d u) = P.exactImplementation? d u := by
  rw [outcome_implementation?_standIn hd]
  cases he : P.standIn d u with
  | ok e => exact hstand e he
  | error diagnostic =>
    -- Both sides ask for the overrides first, and nothing else can fail.
    rcases bind_eq_error.1 he with hoverrides | ⟨overrides, -, h⟩
    · rw [exactImplementation?, hoverrides]
      rfl
    · split at h
      · cases h
      · split at h <;> cases h

/-- An interface method leads to what its nearest exact implementation leads to, unless on the way
there a type answers for another method with the same canonical form, which it implements
otherwise.  Where no reference types are involved there is no such method. -/
theorem interfaceTarget?_of_nearest {t x : Ty} {before rest : List Ty} {body : Method}
    (hchain : (P.baseChain t).value = before ++ x :: rest)
    (hbefore : ∀ u ∈ before, P.exactImplementation? d.definition u = .ok none)
    (hx : P.exactImplementation? d.definition x = .ok (some body))
    (hstand : d.definition.canonical.hasCanon = true → ∀ u ∈ before ++ [x], ∀ e,
      P.standIn d.definition u = .ok e →
        P.exactImplementation? e u = P.exactImplementation? d.definition u) :
    outcome (P.interfaceTarget? d t) =
      some <$> outcome (P.classTarget (body.withArgs d.args) t) := by
  have hexact : ∀ u ∈ before ++ [x],
      outcome (P.implementation? d.definition u) = P.exactImplementation? d.definition u := by
    intro u hu
    refine implementation?_eq_exact rfl fun e he => ?_
    cases hshared : d.definition.canonical.hasCanon with
    | true => exact hstand hshared u hu e he
    | false => rw [standIn_eq_self rfl hshared he]
  have hfirst : firstAnswer (fun u => outcome (P.implementation? d.definition u))
      (before ++ x :: rest) = .ok (some body) := by
    refine firstAnswer_append_cons (fun u hu => ?_) ?_
    · rw [hexact u (List.mem_append_left _ hu), hbefore u hu]
    · rw [hexact x (List.mem_append_right _ (List.mem_singleton_self x)), hx]
  rw [outcome_interfaceTarget?, ← value_baseChain, hchain, hfirst, ok_bind]

end Program

/-! ### Codecs

A packer is a codec for texts and one for any objects, each by a method of its own. -/

namespace Coding

def codec : TypeDecl :=
  { id := 19, space := "App", name := "Codec", flags := { interface := true, abstract := true },
    arity := 1 }

def packer : TypeDecl := { id := 20, space := "App", name := "Packer" }

def zipper : TypeDecl := { id := 21, space := "App", name := "Zipper" }

def encode : MethodDecl :=
  .ofName 0 codec "Encode" .ofAbstract

def packText : MethodDecl := .ofName 1 packer "PackText" .ofVirtual

def packAny : MethodDecl := .ofName 2 packer "PackAny" .ofVirtual

def zipText : MethodDecl := .ofName 3 zipper "PackText" .ofOverride

/-- Encoding values of a given type. -/
def encodeOf (t : Ty) : Method :=
  ⟨encode, .app (.decl codec) t, []⟩

def overridesOfPacker : OverrideList :=
  (OverrideList.none.push ⟨encodeOf (.ofWellKnown .string), packText.method⟩).push
    ⟨encodeOf .object, packAny.method⟩

def types : List TypeRecord :=
  [.ofMethods codec none [encode],
    { TypeRecord.ofMethods packer (some .object) [packText, packAny] with
      interfaces := some [.app (.decl codec) (.ofWellKnown .string), .app (.decl codec) .object],
      overrides := overridesOfPacker },
    .ofMethods zipper (some (.decl packer)) [zipText]]

def program : Program := .withTypes types

/-- Encoding takes no arguments of its own. -/
theorem definition_encodeOf (t : Ty) : (encodeOf t).definition = encodeOf t := rfl

/-- Encoding texts and encoding any objects are two methods. -/
theorem encodeOf_ne : encodeOf (.ofWellKnown .string) ≠ encodeOf .object := by
  simp [encodeOf, Ty.ofWellKnown, Ty.object, WellKnown.decl, WellKnown.name]

/-- A packer overrides both explicitly, each by a method of its own. -/
theorem overridesOf_packer : outcome (program.overridesOf (.decl packer)) =
    .ok [⟨encodeOf (.ofWellKnown .string), packText.method⟩,
      ⟨encodeOf .object, packAny.method⟩] := by
  have hsettled : (program.record packer).overrides.settled =
      .ok [⟨encodeOf (.ofWellKnown .string), packText.method⟩,
        ⟨encodeOf .object, packAny.method⟩] := by
    have hrecord : (program.record packer).overrides = overridesOfPacker := rfl
    rw [hrecord]
    simp [overridesOfPacker, OverrideList.push, OverrideList.none, Override.settleAfter,
      encodeOf_ne]
  have hdecl : (Ty.decl packer).decl? = some packer := rfl
  have hargs : (Ty.decl packer).args = [] := rfl
  simp [Program.overridesOf, hdecl, hargs, hsettled, Program.instantiateOverrides]

/-- A zipper is a packer. -/
theorem baseChain_zipper :
    (program.baseChain (.decl zipper)).value = [.decl zipper, .decl packer, .object] :=
  program.value_baseChain _

/-- A zipper by itself implements no encoding. -/
theorem exactImplementation?_zipper (t : Ty) :
    program.exactImplementation? (encodeOf t) (.decl zipper) = .ok none := by
  have hoverrides : outcome (program.overridesOf (.decl zipper)) = .ok [] := rfl
  have hclosure : (program.interfaceClosure (.decl zipper)).value = [] := rfl
  simp [Program.exactImplementation?, hoverrides, hclosure]

/-- A packer has a method for encoding texts. -/
theorem exactImplementation?_string :
    program.exactImplementation? (encodeOf (.ofWellKnown .string)) (.decl packer) =
      .ok (some packText.method) := by
  simp [Program.exactImplementation?, overridesOf_packer, definition_encodeOf]

/-- A packer has another method for encoding any objects. -/
theorem exactImplementation?_object :
    program.exactImplementation? (encodeOf .object) (.decl packer) = .ok (some packAny.method) := by
  simp [Program.exactImplementation?, overridesOf_packer, definition_encodeOf, encodeOf_ne]

/-- What is asked about any objects is answered about texts. -/
theorem standIn_packer {t : Ty} (ht : t.isReference = true) :
    program.standIn (encodeOf t) (.decl packer) = .ok (encodeOf (.ofWellKnown .string)) := by
  have hform : ∀ u : Ty, u.isReference = true → (encodeOf u).canonical = encodeOf .canon := by
    intro u hu
    simp [encodeOf, Method.canonical, Ty.canonical, hu]
  simp [Program.standIn, overridesOf_packer, definition_encodeOf, hform t ht,
    hform (.ofWellKnown .string) rfl]

/-- A zipper by itself answers for whatever it is asked for. -/
theorem standIn_zipper (t : Ty) :
    program.standIn (encodeOf t) (.decl zipper) = .ok (encodeOf t) := by
  have hoverrides : outcome (program.overridesOf (.decl zipper)) = .ok [] := rfl
  have hclosure : (program.interfaceClosure (.decl zipper)).value = [] := rfl
  simp [Program.standIn, hoverrides, hclosure]

/-- The methods of a packer introduce slots. -/
theorem introducesSlot_packer {m : MethodDecl} (hm : m = packText ∨ m = packAny) :
    program.IntroducesSlot m.method := by
  rcases hm with rfl | rfl <;> exact .inr (.inl rfl)

/-- What a zipper does to texts occupies the slot of the packer. -/
theorem slotOf_zipText : outcome (program.slotOf zipText.method) = .ok packText.method := by
  refine (introducesSlot_packer (.inl rfl)).slotOf_overriding rfl rfl rfl
    (Program.overridden?_of_base (by decide) rfl rfl ?_) (by decide)
  have hmethods : program.methods (.decl packer) = [packText.method, packAny.method] := rfl
  have hvirtual : packText.method.isVirtual = true := rfl
  have hsame : packText.method.sameNameAndSignature zipText.method = true :=
    MethodDecl.sameNameAndSignature_method rfl rfl
  have howner : packText.method.owner = .decl packer := rfl
  rw [howner, hmethods]
  simp [hvirtual, hsame]

/-- On a zipper, the slot of packing texts is filled by zipping. -/
theorem classTarget_zipper :
    outcome (program.classTarget packText.method (.decl zipper)) = .ok zipText.method :=
  Program.classTarget_of_slotFiller? (by decide) rfl ((introducesSlot_packer (.inl rfl)).slotOf rfl)
    (Program.slotFiller?_of_methods rfl rfl rfl rfl slotOf_zipText)

/-- On a zipper, encoding texts leads to what it has in place of the packer's method. -/
theorem interfaceTarget?_zipper :
    program.exactImplementation? (encodeOf (.ofWellKnown .string)) (.decl packer) =
        .ok (some packText.method) ∧
      outcome (program.interfaceTarget? (encodeOf (.ofWellKnown .string)) (.decl zipper)) =
        .ok (some zipText.method) := by
  have hchain : (program.baseChain (.decl zipper)).value =
      [.decl zipper] ++ .decl packer :: [.object] := baseChain_zipper
  have hbefore : ∀ u ∈ [Ty.decl zipper],
      program.exactImplementation? (encodeOf (.ofWellKnown .string)) u = .ok none := by
    intro u hu
    rw [List.mem_singleton.1 hu]
    exact exactImplementation?_zipper _
  have hstand : ∀ u ∈ [Ty.decl zipper] ++ [.decl packer], ∀ e,
      program.standIn (encodeOf (.ofWellKnown .string)) u = .ok e →
        program.exactImplementation? e u =
          program.exactImplementation? (encodeOf (.ofWellKnown .string)) u := by
    intro u hu e he
    rcases List.mem_append.1 hu with hu | hu
    · rw [List.mem_singleton.1 hu] at he ⊢
      cases (standIn_zipper _).symm.trans he
      rfl
    · rw [List.mem_singleton.1 hu] at he ⊢
      cases (standIn_packer rfl).symm.trans he
      rfl
  refine ⟨exactImplementation?_string, ?_⟩
  rw [Program.interfaceTarget?_of_nearest (d := encodeOf (.ofWellKnown .string)) hchain hbefore
    exactImplementation?_string fun _ => hstand]
  show some <$> outcome (program.classTarget packText.method (.decl zipper)) = _
  rw [classTarget_zipper]
  rfl

/-- A packer fills the slots of its methods itself. -/
theorem slotFiller?_packer {m : MethodDecl} (hm : m = packText ∨ m = packAny) :
    outcome (program.slotFiller? m.method (.decl packer)) = .ok (some m.method) := by
  have hmethods : program.methods (.decl packer) = [packText.method, packAny.method] := rfl
  have hslots : outcome (program.slotOf packText.method) = .ok packText.method ∧
      outcome (program.slotOf packAny.method) = .ok packAny.method :=
    ⟨(introducesSlot_packer (.inl rfl)).slotOf rfl, (introducesSlot_packer (.inr rfl)).slotOf rfl⟩
  have hinterface : ∀ o ∈ [(⟨encodeOf (.ofWellKnown .string), packText.method⟩ : Override),
      ⟨encodeOf .object, packAny.method⟩], o.decl.owner.isInterface = true := by
    simp [encodeOf, Ty.isInterface, Ty.flags, codec]
  rw [Program.outcome_slotFiller?_of_interface overridesOf_packer hinterface, hmethods]
  have hvirtual : packText.method.isVirtual = true ∧ packAny.method.isVirtual = true := ⟨rfl, rfl⟩
  have hname : packText.method.name ≠ packAny.method.name := by decide
  rcases hm with rfl | rfl
  · simp [List.findM?, hvirtual, hslots]
    rfl
  · simp [List.findM?, hvirtual, hslots, hname]
    rfl

/-- On a packer, its methods lead to themselves. -/
theorem classTarget_packer {m : MethodDecl} (hm : m = packText ∨ m = packAny) :
    outcome (program.classTarget m.method (.decl packer)) = .ok m.method := by
  have hvirtual : m.method.isVirtual = true := by rcases hm with rfl | rfl <;> rfl
  exact Program.classTarget_of_slotFiller? (by decide) hvirtual
    ((introducesSlot_packer hm).slotOf rfl) (slotFiller?_packer hm)

/-- A packer is a codec for texts first, and then one for any objects. -/
theorem interfaceClosure_packer : (program.interfaceClosure (.decl packer)).value =
    [.app (.decl codec) (.ofWellKnown .string), .app (.decl codec) .object] := by
  have hlimit : program.walkLimit = 999999997 + 1 + 1 + 1 := rfl
  have hlisted : (program.interfacesOf (.decl packer)).value =
      [.app (.decl codec) (.ofWellKnown .string), .app (.decl codec) .object] := rfl
  have hnone : ∀ t, (program.interfacesOf (.app (.decl codec) t)).value = [] := fun _ => rfl
  have hne : Ty.object ≠ .ofWellKnown .string := by
    simp [Ty.ofWellKnown, Ty.object, WellKnown.decl, WellKnown.name]
  have hcontains : ∀ (r : Roster Ty) i, i ∉ r.toList → r.contains i = false := by
    intro r i hi
    rwa [Bool.eq_false_iff, Ne, Roster.contains_iff_mem]
  rw [Program.interfaceClosure, hlimit]
  simp [Program.closeInterfaces, hlisted, hnone, hcontains, Roster.toList_insert_of_not_mem, hne]

/-- A packer is a codec for any objects. -/
theorem mem_allInterfaces_packer :
    .app (.decl codec) .object ∈ (program.allInterfaces (.decl packer)).value := by
  have hchain : program.chain program.walkLimit (.decl packer) = [.decl packer, .object] := rfl
  simp [Program.allInterfaces, hchain, interfaceClosure_packer, Roster.mem_toList_insertAll]

/-- A packer that is asked for encoding any objects answers with what it has for texts. -/
theorem exists_interfaceTarget?_ne : ∃ (P : Program) (d body : Method) (t x : Ty)
    (before rest : List Ty), d.args = [] ∧ d.hasCanon = false ∧
      d.owner ∈ (P.allInterfaces t).value ∧ (P.baseChain t).value = before ++ x :: rest ∧
      (∀ u ∈ before, P.exactImplementation? d u = .ok none) ∧
      P.exactImplementation? d x = .ok (some body) ∧
      outcome (P.interfaceTarget? d t) ≠ some <$> outcome (P.classTarget body t) := by
  refine ⟨program, encodeOf .object, packAny.method, .decl packer, .decl packer, [], [.object], rfl,
    rfl, mem_allInterfaces_packer, program.value_baseChain _, by simp,
    exactImplementation?_object, ?_⟩
  have hfound : outcome (program.implementation? (encodeOf .object) (.decl packer)) =
      .ok (some packText.method) := by
    rw [Program.outcome_implementation?_standIn rfl, standIn_packer rfl, ok_bind,
      exactImplementation?_string]
  have hchain : program.chain program.walkLimit (.decl packer) = [.decl packer, .object] := rfl
  have htarget : outcome (program.interfaceTarget? (encodeOf .object) (.decl packer)) =
      .ok (some packText.method) := by
    rw [Program.outcome_interfaceTarget?, hchain, definition_encodeOf, firstAnswer, hfound]
    show some <$> outcome (program.classTarget packText.method (.decl packer)) = _
    rw [classTarget_packer (.inl rfl)]
    rfl
  rw [htarget, classTarget_packer (.inr rfl)]
  intro h
  cases h

end Coding

end AheadOfTime
