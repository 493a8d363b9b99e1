import AheadOfTime.Declaration
import AheadOfTime.Proofs.Program.Dispatch
import AheadOfTime.Proofs.Roster
import AheadOfTime.Sealing

/-!
# What sealing promises

A type that is sealed by the objects that exist is seen on no object of another type.  For classes
this holds because every base type of an existing object is unsealed, for arrays because of any two
of which objects exist the one that the other can be cast to is.

A method that is sealed is not overridden below its owner, so that a call on an object below the
owner ends where it ends on the owner itself.  That need not be the method: an explicit override of
the owner may give its slot to another method.  Nobody looks at the owner when sealing is concluded,
so that a method may be sealed to which no call leads.
-/

set_option autoImplicit false

namespace AheadOfTime

/-! ## Knowledge from the types of which objects exist -/

namespace Constructed

/-- Arrays are compared as they are, and other types by their canonical form. -/
theorem value_key (t : Ty) : (key t).value = if t.isArray then t else t.canonical := by
  unfold key
  split <;> simp

variable (P : Program)

/-- The keys of the types that a type extends. -/
def baseKeys (t : Ty) : List Ty :=
  (P.properBases t).map fun b => (key b).value

/-- A type that has objects adds its key, and unseals the types that it extends. -/
theorem value_add (c : Constructed) (t : Ty) : (add P c t).value =
    { c with keys := c.keys.insert (key t).value,
             unsealed := c.unsealed.insertAll (baseKeys P t) } := by
  unfold add baseKeys Program.properBases
  rw [Program.chain]
  cases hbase : (P.baseType t).value <;> simp [hbase]

/-- Types that have objects add their keys, and unseal the types that they extend. -/
theorem foldl_add (l : List Ty) (c : Constructed) :
    l.foldl (fun c t => (add P c t).value) c =
      { c with keys := c.keys.insertAll (l.map fun t => (key t).value),
               unsealed := c.unsealed.insertAll (l.flatMap (baseKeys P)) } := by
  induction l generalizing c with
  | nil => rfl
  | cons t l ih =>
    rw [List.foldl_cons, ih, value_add]
    simp only [Roster.insertAll, List.map_cons, List.foldl_cons, List.flatMap_cons,
      List.foldl_append]

/-- The arrays among some types that a given one can be cast to. -/
def castKeys (types : List Ty) (source : Ty) : List Ty :=
  (types.filter Ty.isArray).filter fun target =>
    !decide (source = target) && (P.canCast source target).value

/-- What is known of types that have objects are their keys and what they unseal: the types that
they extend, and arrays that others can be cast to. -/
theorem value_ofTypes (types : List Ty) : (ofTypes P types).value =
    { types, keys := Roster.empty.insertAll (types.map fun t => (key t).value),
             unsealed := (Roster.empty.insertAll (types.flatMap (baseKeys P))).insertAll
              ((types.filter Ty.isArray).flatMap (castKeys P types)) } := by
  have htargets : ∀ source, (castTargets P (types.filter Ty.isArray) source).value =
      castKeys P types source := by
    intro source
    unfold castTargets castKeys
    rw [Recorded.value_filterM]
    congr 1
    funext target
    split <;> simp [*]
  unfold ofTypes
  simp only [Recorded.value_bind, Recorded.value_foldlM, Recorded.value_mapM, foldl_add,
    Recorded.value_pure, htargets, List.flatMap_def]

variable {P} {types : List Ty}

/-- The types that have objects are kept. -/
@[simp] theorem types_ofTypes : (ofTypes P types).value.types = types := by
  rw [value_ofTypes]

/-- The keys are those of the types that have objects. -/
theorem mem_keys_ofTypes {k : Ty} :
    k ∈ (ofTypes P types).value.keys.toList ↔ ∃ t ∈ types, (key t).value = k := by
  rw [value_ofTypes]
  simp [Roster.mem_toList_insertAll]

/-- What is not sealed is extended by a type that has objects, or is an array to which another array
that has objects can be cast. -/
theorem mem_unsealed_ofTypes {k : Ty} : k ∈ (ofTypes P types).value.unsealed.toList ↔
    (∃ t ∈ types, ∃ b ∈ P.properBases t, (key b).value = k) ∨
      k ∈ types ∧ k.isArray = true ∧
        ∃ s ∈ types, s.isArray = true ∧ s ≠ k ∧ (P.canCast s k).value = true := by
  rw [value_ofTypes, Roster.mem_toList_insertAll, Roster.mem_toList_insertAll]
  simp only [Roster.toList_empty, List.not_mem_nil, false_or, List.mem_flatMap, baseKeys, castKeys,
    List.mem_map, List.mem_filter, Bool.and_eq_true, Bool.not_eq_true', decide_eq_false_iff_not]
  grind

/-! ## Types -/

/-- A class is sealed if objects exist that are compared as it is, and none of another type can be
seen as it. -/
theorem value_sealsType {c : Constructed} {t : Ty} : (c.sealsType t).value = true ↔
    t.isInterface = false ∧ t.isAbstract = false ∧ (key t).value ∈ c.keys.toList ∧
      (key t).value ∉ c.unsealed.toList := by
  unfold sealsType
  split
  · next h =>
    rw [Recorded.value_pure]
    simp only [Bool.or_eq_true] at h
    constructor
    · intro hfalse
      cases hfalse
    · rintro ⟨hinterface, habstract, -⟩
      simp [hinterface, habstract] at h
  · next h =>
    rw [Bool.not_eq_true, Bool.or_eq_false_iff] at h
    rw [Recorded.value_bind, Recorded.value_pure, Bool.and_eq_true, Roster.contains_iff_mem,
      Bool.not_eq_true', Bool.eq_false_iff, Ne, Roster.contains_iff_mem]
    simp [h.1, h.2]

/-- A base type of an existing object is not sealed. -/
theorem not_sealsType_of_mem_chain {c t : Ty} (hc : c ∈ types) (ht : t ∈ P.chain P.walkLimit c)
    (hne : t ≠ c) : ((ofTypes P types).value.sealsType t).value ≠ true := by
  intro hsealed
  obtain ⟨-, -, -, hnot⟩ := value_sealsType.1 hsealed
  have hbase := P.mem_properBases_of_mem_chain ht hne
  exact hnot (mem_unsealed_ofTypes.2 (.inl ⟨c, hc, t, hbase, rfl⟩))

/-- Arrays are compared as they are: objects of a sealed array type exist. -/
theorem mem_types_of_isArray {t : Ty} (ht : t.isArray = true)
    (hkey : (key t).value ∈ (ofTypes P types).value.keys.toList) : t ∈ types := by
  obtain ⟨c, hc, hkey⟩ := mem_keys_ofTypes.1 hkey
  rw [value_key, value_key, ht, if_pos rfl] at hkey
  cases harray : c.isArray with
  | true =>
    rw [harray, if_pos rfl] at hkey
    exact hkey ▸ hc
  | false =>
    -- the canonical form of a type that is no array is no array
    rw [harray, if_neg Bool.false_ne_true] at hkey
    rw [← Ty.isArray_canonical, hkey, ht] at harray
    cases harray

/-- An object that can be seen as a type which is sealed by the objects that exist is of exactly
that type. -/
theorem eq_of_sealsType_of_canCast {c t : Ty}
    (hsealed : ((ofTypes P types).value.sealsType t).value = true) (hc : c ∈ types)
    (hcast : (P.canCast c t).value = true) : c = t := by
  obtain ⟨hclass, -, hkey, hnot⟩ := value_sealsType.1 hsealed
  by_contra hne
  by_cases harrays : c.isArray = true ∧ t.isArray = true
  · have ht := mem_types_of_isArray harrays.2 hkey
    rw [value_key, harrays.2, if_pos rfl] at hnot
    exact hnot (mem_unsealed_ofTypes.2 (.inr ⟨ht, harrays.2, c, hc, harrays.1, hne, hcast⟩))
  · have hchain := (P.mem_chain_of_canCast hcast hclass harrays).resolve_left hne
    exact not_sealsType_of_mem_chain hc hchain (Ne.symm hne) hsealed

end Constructed

namespace Covariance

def string : Ty := .ofWellKnown .string

def strings : Ty := .array string none

def objects : Ty := .array .object none

/-- Objects are not texts. -/
theorem object_ne_string : Ty.object ≠ string := by
  simp [string, Ty.object, Ty.ofWellKnown, WellKnown.decl, WellKnown.name]

/-- Arrays of objects are not arrays of texts. -/
theorem objects_ne_strings : objects ≠ strings := by
  simp [objects, strings, object_ne_string]

/-- Arrays of objects cannot be cast to arrays of texts. -/
theorem canCast_objects_strings : (Program.initial.canCast objects strings).value = false := by
  have hobject : (Program.initial.canCast .object string).value = false := by
    rw [Bool.eq_false_iff]
    intro h
    have hchain : Program.initial.chain Program.initial.walkLimit .object = [.object] := rfl
    have hmem := Program.initial.mem_chain_of_canCast h rfl fun harrays => nomatch harrays.1
    simp [hchain, object_ne_string, object_ne_string.symm] at hmem
  have hdirect : (Program.initial.extendsOrImplements objects strings).value ≠ true := by
    have hchain : Program.initial.chain Program.initial.walkLimit objects =
        [objects, .ofWellKnown .array, .object] := rfl
    have harray : strings ≠ .ofWellKnown .array ∧ strings ≠ .object := by
      simp [strings, Ty.object, Ty.ofWellKnown]
    rw [Ne, Program.value_extendsOrImplements _ rfl, hchain]
    simp [objects_ne_strings, objects_ne_strings.symm, harray]
  unfold Program.canCast
  rw [Recorded.value_bind, if_neg hdirect]
  exact hobject

/-- Next to arrays of objects, arrays of texts are sealed. -/
theorem sealsType_strings :
    ((Constructed.ofTypes .initial [strings, objects]).value.sealsType strings).value = true := by
  have hkey : (Constructed.key strings).value = strings := rfl
  rw [Constructed.value_sealsType, hkey]
  refine ⟨rfl, rfl, Constructed.mem_keys_ofTypes.2 ⟨strings, List.mem_cons_self, hkey⟩, ?_⟩
  rw [Constructed.mem_unsealed_ofTypes]
  rintro (⟨t, ht, b, hb, hstrings⟩ | ⟨-, -, s, hs, -, hne, hcast⟩)
  · have hbases : Program.initial.properBases t = [.ofWellKnown .array, .object] := by
      simp only [List.mem_cons, List.not_mem_nil, or_false] at ht
      rcases ht with rfl | rfl <;> rfl
    rw [hbases] at hb
    simp only [List.mem_cons, List.not_mem_nil, or_false] at hb
    rw [Constructed.value_key] at hstrings
    rcases hb with rfl | rfl <;> cases hstrings
  · simp only [List.mem_cons, List.not_mem_nil, or_false] at hs
    rw [hs.resolve_left hne, canCast_objects_strings] at hcast
    cases hcast

/-- Strings can be seen as objects, but objects not as strings: with both kinds of arrays, those of
strings are sealed. -/
theorem eq_of_sealsType_of_canCast_strings :
    ((Constructed.ofTypes .initial [strings, objects]).value.sealsType strings).value = true ∧
      (Program.initial.canCast strings strings).value = true ∧
      ∀ c ∈ [strings, objects], (Program.initial.canCast c strings).value = true → c = strings :=
  ⟨sealsType_strings, Program.value_canCast_self _ _, fun _ hc hcast =>
    Constructed.eq_of_sealsType_of_canCast sealsType_strings hc hcast⟩

end Covariance

/-! ## Methods -/

namespace Program

variable (P : Program)

/-- Whenever a method leads anywhere on a type, it leads to itself, up to the canonical form. -/
def LandsOn (m : Method) (t : Ty) : Prop :=
  ∀ target, outcome (P.resolve m t) = .ok target → target.canonical = m.canonical

/-- The slot of a final method is not filled below the owner of the method. -/
def KeepsFinal : Prop :=
  ∀ m s, P.Declares m → m.isVirtual = true → m.isFinal = true →
    outcome (P.slotOf m.definition) = .ok s →
    ∀ u, u ≠ m.owner → m.owner ∈ P.chain P.walkLimit u →
      ∀ found, outcome (P.slotFiller? s u) ≠ .ok (some found)

variable {P} {m : Method}

/-- If nothing below its owner fills its slot, a method leads where it leads on its owner. -/
theorem resolve_eq_of_not_filled {s target : Method} {c : Ty} (hm : m.isVirtual = true)
    (hclass : m.owner.isInterface = false) (howner : m.owner ∈ P.chain P.walkLimit c)
    (hs : outcome (P.slotOf m.definition) = .ok s)
    (hnone : ∀ u, u ≠ m.owner → m.owner ∈ P.chain P.walkLimit u →
      ∀ found, outcome (P.slotFiller? s u) ≠ .ok (some found))
    (h : outcome (P.resolve m c) = .ok target) :
    target = m ∨ outcome (P.resolve m m.owner) = .ok target := by
  obtain ⟨before, k, hchain, hlength, hbefore⟩ := P.exists_chain_eq_append howner
  rw [P.outcome_resolve_of_class hclass, P.outcome_classTarget hm, hs, ok_bind, hchain,
    firstAnswer_append, bind_assoc] at h
  obtain ⟨found, hfound, h⟩ := bind_eq_ok.1 h
  cases found with
  | some found =>
    obtain ⟨u, hu, hfiller⟩ := exists_of_firstAnswer_eq_some hfound
    obtain ⟨hne, hmem⟩ := hbefore u hu
    exact absurd hfiller (hnone u hne hmem found)
  | none =>
    obtain ⟨found, hfound, h⟩ := bind_eq_ok.1 h
    dsimp only at hfound
    cases found with
    | none =>
      cases h
      exact .inl rfl
    | some found =>
      -- what the rest of the walk finds, the walk from the owner finds too
      obtain ⟨rest, hrest⟩ := P.chain_prefix (show k + 1 ≤ P.walkLimit by omega) m.owner
      rw [P.outcome_resolve_of_class hclass, P.outcome_classTarget hm, hs, ok_bind, ← hrest,
        firstAnswer_append, hfound]
      exact .inr h

/-- A final method leads to itself if it does so on its owner. -/
theorem KeepsFinal.landsOn (hP : P.KeepsFinal) (hm : P.Declares m) (hvirtual : m.isVirtual = true)
    (hclass : m.owner.isInterface = false) (hfinal : m.isFinal = true)
    (hlands : P.LandsOn m m.owner) {c : Ty} (howner : m.owner ∈ P.chain P.walkLimit c) :
    P.LandsOn m c := by
  intro target htarget
  have hslot : ∃ s, outcome (P.slotOf m.definition) = .ok s := by
    rw [P.outcome_resolve_of_class hclass, P.outcome_classTarget hvirtual] at htarget
    obtain ⟨s, hs, -⟩ := bind_eq_ok.1 htarget
    exact ⟨s, hs⟩
  obtain ⟨s, hs⟩ := hslot
  have hnone := hP m s hm hvirtual hfinal hs
  rcases resolve_eq_of_not_filled hvirtual hclass howner hs hnone htarget with rfl | hresolve
  · rfl
  · exact hlands target hresolve

end Program

namespace Constructed

variable {P : Program} {types : List Ty} {m : Method}

/-- A sealed method has objects compared as its owner, and it is final, its owner is sealed, or it is
known not to be overridden. -/
theorem value_sealsMethod {known : Constructed} : (known.sealsMethod P m).value = true ↔
    (key m.owner).value ∈ known.keys.toList ∧ (m.isFinal = true ∨
      (known.sealsType m.owner).value = true ∨ outcome (known.isOverridden P m) = .ok false) := by
  unfold sealsMethod contains
  rw [Recorded.value_bind, Recorded.value_bind, Recorded.value_pure, ← Roster.contains_iff_mem]
  cases hkey : known.keys.contains (key m.owner).value with
  | false => simp
  | true =>
    cases hfinal : m.isFinal with
    | true => simp
    | false =>
      cases hseals : (known.sealsType m.owner).value with
      | true => simp [hseals]
      | false =>
        cases hoverridden : outcome (known.isOverridden P m) with
        | error e =>
          have hrun : (known.isOverridden P m).run.value = .error e := hoverridden
          simp [hseals, hrun]
        | ok overridden =>
          have hrun : (known.isOverridden P m).run.value = .ok overridden := hoverridden
          simp [hseals, hrun]

/-- Where a method is not overridden it leads to itself, on all types that are not compared as its
owner. -/
theorem landsOn_of_isOverridden_eq_false {known : Constructed} {c : Ty}
    (h : outcome (known.isOverridden P m) = .ok false) (hclass : m.owner.isInterface = false)
    (hc : c ∈ known.types) (hkey : (key c).value ≠ (key m.owner).value)
    (howner : m.owner ∈ P.chain P.walkLimit c) : P.LandsOn m c := by
  have hderives := P.derivesUpToCanon_of_mem_chain hclass howner rfl
  unfold isOverridden at h
  simp only [outcome_bind, outcome_liftM, ok_bind, outcome_anyM] at h
  have hsame := anyM_eq_false h c hc
  intro target htarget
  simpa [hkey, hderives, htarget] using hsame

/-- A type is compared as the owner of a declared method only if it has the same declaration. -/
theorem decl?_eq_of_key_eq {c : Ty} (hm : P.Declares m)
    (hkey : (key c).value = (key m.owner).value) : c.decl? = m.owner.decl? := by
  obtain ⟨d, hd, -⟩ := hm
  have hnotArray : ∀ {t : Ty}, t.decl? = some d → t.isArray = false := by
    intro t ht
    cases t <;> first | rfl | cases ht
  rw [value_key, value_key, hnotArray hd, if_neg Bool.false_ne_true] at hkey
  split at hkey
  · rw [hkey, Ty.decl?_canonical]
  · rw [← Ty.decl?_canonical, hkey, Ty.decl?_canonical]

/-- A method that the existing objects seal leads to itself on all of them that are below its owner,
if it does so on the owner.  Such an object has another declaration than the owner, or is of the owner
itself. -/
theorem landsOn_of_value_sealsMethod (hfinal : P.KeepsFinal) (hm : P.Declares m)
    (hvirtual : m.isVirtual = true) (hclass : m.owner.isInterface = false)
    (hlands : P.LandsOn m m.owner) (h : ((ofTypes P types).value.sealsMethod P m).value = true)
    {c : Ty} (hc : c ∈ types) (howner : m.owner ∈ P.chain P.walkLimit c)
    (hcopy : c.decl? = m.owner.decl? → c = m.owner) : P.LandsOn m c := by
  by_cases hself : m.owner = c
  · exact hself ▸ hlands
  · by_cases hdeclaredFinal : m.isFinal = true
    · exact hfinal.landsOn hm hvirtual hclass hdeclaredFinal hlands howner
    · have hseals : ((ofTypes P types).value.sealsType m.owner).value ≠ true :=
        not_sealsType_of_mem_chain hc howner hself
      obtain ⟨-, h⟩ := value_sealsMethod.1 h
      have hoverridden := (h.resolve_left hdeclaredFinal).resolve_left hseals
      have hkey : (key c).value ≠ (key m.owner).value := fun hkey =>
        hself (hcopy (decl?_eq_of_key_eq hm hkey)).symm
      exact landsOn_of_isOverridden_eq_false hoverridden hclass (types_ofTypes ▸ hc) hkey howner

end Constructed

namespace Program

variable {P : Program} {m : Method}

/-- A method that the declarations seal leads to itself on all types below its owner, if it does so
on the owner. -/
theorem landsOn_of_declared (hsealed : P.KeepsSealed) (hfinal : P.KeepsFinal) (hm : P.Declares m)
    (hvirtual : m.isVirtual = true) (hclass : m.owner.isInterface = false)
    (hlands : P.LandsOn m m.owner) (h : (Sealing.declared.sealsMethod P m).value = true)
    {c : Ty} (howner : m.owner ∈ P.chain P.walkLimit c) : P.LandsOn m c := by
  have hdeclared : m.isFinal = true ∨ Sealing.declaresType m.owner = true := Bool.or_eq_true_iff.1 h
  rcases hdeclared with hdeclaredFinal | hdeclared
  · exact hfinal.landsOn hm hvirtual hclass hdeclaredFinal hlands howner
  · have hflags : m.owner.isDeclaredSealed = true ∨ m.owner.isValueType = true := by
      obtain ⟨d, hd, -⟩ := hm
      unfold Sealing.declaresType at hdeclared
      split at hdeclared
      · next howner =>
        rw [howner] at hd
        cases hd
      · rw [Bool.and_eq_true, Bool.or_eq_true] at hdeclared
        exact hdeclared.2
    rw [← hsealed.eq_of_mem_chain hflags howner]
    exact hlands

/-- A sealed method leads to itself on everything below its owner if it does so on the owner: on the
objects that exist if sealing is concluded from them, unless their type extends another one of its own
declaration, and on all types if it is concluded from the declarations. -/
theorem landsOn_of_sealsMethod {types : List Ty} (hsealed : P.KeepsSealed) (hfinal : P.KeepsFinal)
    (hm : P.Declares m) (hvirtual : m.isVirtual = true) (hclass : m.owner.isInterface = false)
    (hlands : P.LandsOn m m.owner) :
    (((Sealing.constructed (Constructed.ofTypes P types).value).sealsMethod P m).value = true →
      ∀ c ∈ types, m.owner ∈ (P.baseChain c).value →
        (c.decl? = m.owner.decl? → c = m.owner) → P.LandsOn m c) ∧
    ((Sealing.declared.sealsMethod P m).value = true →
      ∀ c, m.owner ∈ (P.baseChain c).value → P.LandsOn m c) := by
  constructor
  · intro h c hc howner hcopy
    rw [P.value_baseChain] at howner
    exact Constructed.landsOn_of_value_sealsMethod hfinal hm hvirtual hclass hlands h hc howner hcopy
  · intro h c howner
    rw [P.value_baseChain] at howner
    exact landsOn_of_declared hsealed hfinal hm hvirtual hclass hlands h howner

end Program

/-! ## A sealed method to which no call leads -/

namespace Accounts

def account : TypeDecl := { id := 19, space := "App", name := "Account" }

def savings : TypeDecl := { id := 20, space := "App", name := "Savings" }

def junior : TypeDecl := { id := 21, space := "App", name := "Junior" }

def escrow : TypeDecl := { id := 22, space := "App", name := "Escrow", flags := { sealed := true } }

def auditAccount : MethodDecl := .ofName 0 account "Audit" .ofVirtual

def auditSavings : MethodDecl :=
  .ofName 1 savings "Audit" { MethodFlags.ofOverride with final := true }

def auditEscrow : MethodDecl := .ofName 2 escrow "Audit" .ofOverride

def review : MethodDecl := .ofName 3 escrow "Review" .ofVirtual

/-- Escrow accounts have an audit of their own, but then say that they are reviewed instead. -/
def types : List TypeRecord :=
  [.ofMethods account (some .object) [auditAccount],
    .ofMethods savings (some (.decl account)) [auditSavings],
    .ofMethods junior (some (.decl savings)) [],
    { TypeRecord.ofMethods escrow (some (.decl account)) [auditEscrow, review] with
      overrides := OverrideList.none.push ⟨auditAccount.method, review.method⟩ }]

def program : Program := .withTypes types

/-- No account extends a sealed one. -/
theorem keepsSealed : program.KeepsSealed := by
  intro t b hb
  refine Program.flags_baseType_of_withTypes
    (q := fun flags => flags.sealed = false ∧ flags.valueType = false) ⟨rfl, rfl⟩ ⟨rfl, rfl⟩ types rfl
    (fun r hr b hb => ?_) hb
  simp only [types, List.mem_cons, List.not_mem_nil, or_false] at hr
  rcases hr with rfl | rfl | rfl | rfl <;> cases hb <;> exact ⟨_, rfl, rfl, rfl⟩

/-- Accounts extend what was declared before them. -/
theorem extendsEarlier : ∀ p ∈ program.types.toList.zipIdx, ∀ b ∈ p.1.base.join,
    ∃ d ∈ b.decl?, d.id < p.2 := by
  decide

/-- No account extends itself. -/
theorem acyclic : program.Acyclic :=
  Program.acyclic_of_order extendsEarlier

/-- Only savings accounts have a final method, and what extends them has no methods. -/
theorem keepsFinal : program.KeepsFinal := by
  have hfinal : ∀ p ∈ program.types.toList.zipIdx, ∀ m ∈ p.1.methods, m.flags.final = true →
      p.2 = savings.id := by
    decide
  have hbelow : ∀ p ∈ program.types.toList.zipIdx, ∀ b ∈ p.1.base.join, ∀ d ∈ b.decl?,
      savings.id ≤ d.id → p.2 = junior.id := by
    decide
  intro m s ⟨d, hd, hm⟩ _ hmfinal _ u hne howner found hfound
  have hid : d.id = savings.id := by
    rcases Program.record_mem_zipIdx_or_eq (P := program) d with hmem | hnone
    · exact hfinal _ hmem _ hm hmfinal
    · rw [hnone] at hm
      cases hm
  have hnone : outcome (program.slotFiller? s u) = .ok none := by
    refine Program.slotFiller?_of_record fun e hu => ?_
    obtain ⟨b, hb, hbowner⟩ :=
      program.mem_properBases.1 (program.mem_properBases_of_mem_chain howner (Ne.symm hne))
    rw [program.value_baseType_of_decl? hu] at hb
    obtain ⟨base, hbase, rfl⟩ := Option.map_eq_some_iff.1 hb
    rcases Program.record_mem_zipIdx_or_eq (P := program) e with hmem | hnone
    · obtain ⟨d', hd', -⟩ := extendsEarlier _ hmem base hbase
      obtain ⟨d'', hd'', hle⟩ :=
        Program.id_le_of_mem_chain extendsEarlier (Ty.decl?_subst _ hd') hbowner
      cases hd.symm.trans hd''
      have he : e.id = junior.id := hbelow _ hmem base hbase d' hd' (hid ▸ hle)
      rw [Program.record, he]
      exact ⟨rfl, rfl⟩
    · rw [hnone] at hbase
      cases hbase
  rw [hnone] at hfound
  cases hfound

/-- The audit of accounts introduces a slot. -/
theorem introducesSlot_auditAccount : program.IntroducesSlot auditAccount.method :=
  .inr (.inl rfl)

/-- On accounts, whatever is an audit finds the audit of accounts. -/
theorem find?_auditAccount {d : MethodDecl} (hname : d.name = "Audit")
    (hsignature : d.signature = auditAccount.signature) :
    ((program.methods (.decl account)).find? fun c =>
      c.isVirtual && c.sameNameAndSignature d.method) = some auditAccount.method := by
  have hmethods : program.methods (.decl account) = [auditAccount.method] := rfl
  have hvirtual : auditAccount.method.isVirtual = true := rfl
  have hsame : auditAccount.method.sameNameAndSignature d.method = true :=
    MethodDecl.sameNameAndSignature_method hname.symm hsignature.symm
  rw [hmethods]
  simp [hvirtual, hsame]

/-- The audit of savings occupies the slot of the audit of accounts. -/
theorem slotOf_auditSavings :
    outcome (program.slotOf auditSavings.method) = .ok auditAccount.method := by
  refine introducesSlot_auditAccount.slotOf_overriding rfl rfl rfl ?_ (by decide)
  exact Program.overridden?_of_base (by decide) rfl rfl (find?_auditAccount rfl rfl)

/-- On savings, the slot is filled by their own audit. -/
theorem slotFiller?_savings :
    outcome (program.slotFiller? auditAccount.method (.decl savings)) =
      .ok (some auditSavings.method) :=
  Program.slotFiller?_of_methods rfl rfl rfl rfl slotOf_auditSavings

/-- On savings, their audit leads to itself. -/
theorem landsOn_savings : program.LandsOn auditSavings.method (.decl savings) := by
  intro target htarget
  rw [program.outcome_resolve_of_class rfl,
    Program.classTarget_of_slotFiller? (by decide) rfl slotOf_auditSavings slotFiller?_savings]
    at htarget
  cases htarget
  rfl

/-- On junior savings, the audit of savings leads to itself. -/
theorem resolve_junior :
    outcome (program.resolve auditSavings.method (.decl junior)) = .ok auditSavings.method := by
  have hchain : program.chain program.walkLimit (.decl junior) =
      [.decl junior, .decl savings, .decl account, .object] := rfl
  have hjunior : outcome (program.slotFiller? auditAccount.method (.decl junior)) = .ok none :=
    Program.slotFiller?_of_record fun d hd => by cases hd; exact ⟨rfl, rfl⟩
  rw [program.outcome_resolve_of_class rfl, program.outcome_classTarget rfl,
    MethodDecl.definition_method, slotOf_auditSavings, ok_bind, hchain]
  simp [firstAnswer, hjunior, slotFiller?_savings]
  rfl

/-- What is known if objects of some types exist. -/
def knowing (types : List Ty) : Sealing :=
  .constructed (Constructed.ofTypes program types).value

/-- Junior accounts are audited as savings accounts are, which is what sealing promises. -/
theorem landsOn_of_sealsMethod_junior :
    ((knowing [.decl savings, .decl junior]).sealsMethod program auditSavings.method).value = true ∧
      (Sealing.declared.sealsMethod program auditSavings.method).value = true ∧
      outcome (program.resolve auditSavings.method (.decl junior)) = .ok auditSavings.method ∧
      program.LandsOn auditSavings.method (.decl junior) := by
  have hknown : ((knowing [.decl savings, .decl junior]).sealsMethod program
      auditSavings.method).value = true :=
    Constructed.value_sealsMethod.2
      ⟨Constructed.mem_keys_ofTypes.2 ⟨.decl savings, List.mem_cons_self, rfl⟩, .inl rfl⟩
  have hdeclares : program.Declares auditSavings.method :=
    ⟨savings, rfl, List.mem_singleton_self _⟩
  have howner : .decl savings ∈ (program.baseChain (.decl junior)).value := by
    rw [program.value_baseChain]
    exact List.mem_cons_of_mem _ List.mem_cons_self
  have hcopy : (Ty.decl junior).decl? = (Ty.decl savings).decl? → Ty.decl junior = .decl savings :=
    fun hsame => congrArg Ty.decl (Option.some.inj hsame)
  have hlands := (Program.landsOn_of_sealsMethod keepsSealed keepsFinal hdeclares rfl rfl
    landsOn_savings).1 hknown (.decl junior) (List.mem_cons_of_mem _ List.mem_cons_self) howner hcopy
  exact ⟨hknown, rfl, resolve_junior, hlands⟩

/-- Escrow accounts say that the review stands for the audit. -/
theorem overridesOf_escrow : outcome (program.overridesOf (.decl escrow)) =
    .ok [⟨auditAccount.method, review.method⟩] := rfl

/-- The audit of escrow accounts occupies the slot of the audit of accounts. -/
theorem slotOf_auditEscrow :
    outcome (program.slotOf auditEscrow.method) = .ok auditAccount.method := by
  have howner : auditEscrow.method.owner = .decl escrow := rfl
  have hbase : (program.baseType (.decl escrow)).value = some (.decl account) := rfl
  have hchain : program.chain program.walkLimit (.decl account) = [.decl account, .object] := rfl
  -- the override says what stands for the audit of accounts, and that is not this method
  have hbody : (review.method == auditEscrow.method) = false := by
    simp [review, auditEscrow, MethodDecl.ofName]
  have hfind := find?_auditAccount (d := auditEscrow) rfl rfl
  refine introducesSlot_auditAccount.slotOf_overriding rfl rfl rfl ?_ (by decide)
  rw [Program.outcome_overridden?, howner, overridesOf_escrow, ok_bind, hbase]
  simp [hbody, hchain, hfind]

/-- On escrow accounts, the slot is filled by the review. -/
theorem slotFiller?_escrow :
    outcome (program.slotFiller? auditAccount.method (.decl escrow)) =
      .ok (some review.method) := by
  have hslot := introducesSlot_auditAccount.slotOf rfl
  simp [Program.slotFiller?, overridesOf_escrow, List.findM?, hslot]
  rfl

/-- If escrow accounts are all that exists, they are sealed. -/
theorem sealsType_escrow :
    ((Constructed.ofTypes program [.decl escrow]).value.sealsType (.decl escrow)).value = true := by
  have hbases : program.properBases (.decl escrow) = [.decl account, .object] := rfl
  have hkeys : ∀ d, (Constructed.key (.decl d)).value = .decl d := fun d => by
    rw [Constructed.value_key]
    rfl
  rw [Constructed.value_sealsType, hkeys]
  refine ⟨rfl, rfl, Constructed.mem_keys_ofTypes.2 ⟨_, List.mem_cons_self, hkeys _⟩, ?_⟩
  rw [Constructed.mem_unsealed_ofTypes]
  rintro (⟨t, ht, b, hb, hescrow⟩ | ⟨-, harray, -⟩)
  · rw [List.mem_singleton.1 ht, hbases] at hb
    simp only [List.mem_cons, List.not_mem_nil, or_false] at hb
    rcases hb with rfl | rfl
    · rw [hkeys] at hescrow
      simp [account, escrow] at hescrow
    · rw [Ty.object, Ty.ofWellKnown, hkeys] at hescrow
      simp [WellKnown.decl, WellKnown.flags, escrow] at hescrow
  · cases harray

/-- Escrow accounts are sealed, and so is their audit, by the declarations as well as once an escrow
account exists.  But a call of the audit leads to the review. -/
theorem not_landsOn_auditEscrow :
    program.KeepsSealed ∧ program.KeepsFinal ∧ program.Acyclic ∧
      program.Declares auditEscrow.method ∧ auditEscrow.method.isVirtual = true ∧
      ((knowing [.decl escrow]).sealsMethod program auditEscrow.method).value = true ∧
      (Sealing.declared.sealsMethod program auditEscrow.method).value = true ∧
      auditEscrow.method.owner ∈ (program.baseChain (.decl escrow)).value ∧
      outcome (program.resolve auditEscrow.method (.decl escrow)) = .ok review.method ∧
      ¬ program.LandsOn auditEscrow.method (.decl escrow) := by
  have hresolve : outcome (program.resolve auditEscrow.method (.decl escrow)) =
      .ok review.method := by
    rw [program.outcome_resolve_of_class rfl]
    exact Program.classTarget_of_slotFiller? (by decide) rfl slotOf_auditEscrow slotFiller?_escrow
  have hne : review ≠ auditEscrow := by simp [review, auditEscrow, MethodDecl.ofName]
  have hseals : ((knowing [.decl escrow]).sealsMethod program auditEscrow.method).value = true :=
    Constructed.value_sealsMethod.2
      ⟨Constructed.mem_keys_ofTypes.2 ⟨.decl escrow, List.mem_cons_self, rfl⟩,
        .inr (.inl sealsType_escrow)⟩
  refine ⟨keepsSealed, keepsFinal, acyclic, ⟨escrow, rfl, List.mem_cons_self⟩, rfl, hseals, rfl, ?_,
    hresolve, fun hlands => hne ?_⟩
  · rw [program.value_baseChain]
    exact List.mem_cons_self
  · exact MethodDecl.method_inj.1 (hlands _ hresolve)

end Accounts

end AheadOfTime
