import Mathlib.Data.List.Find
import AheadOfTime.Declaration
import AheadOfTime.Proofs.Program.Dispatch

/-!
# Dispatch of canonical forms

A virtual method may be asked for by its canonical form, which stands for all methods that share its
code.  One would want that the question leads to the same code then.  It does if the method and its
canonical form occupy the same slot, and the slots are found by comparing signatures: a signature
may fit only as long as the arguments are filled in, and then the canonical form introduces a slot
of its own, which nothing below it fills.
-/

set_option autoImplicit false

namespace AheadOfTime

/-! ## Canonical forms of methods -/

namespace Ty

/-- Only declared types are interfaces. -/
theorem exists_decl?_of_isInterface {t : Ty} (h : t.isInterface = true) :
    ∃ d, t.decl? = some d := by
  induction t with
  | decl d => exact ⟨d, rfl⟩
  | app f a ihf _ => exact ihf h
  | _ => cases h

end Ty

/-- Whether a signature mentions generic parameters. -/
def Signature.hasParams (s : Signature) : Bool :=
  s.result.hasParams || s.parameters.any Ty.hasParams

/-- A signature that mentions no parameters stays the same whatever is put in their place. -/
theorem Signature.subst_of_not_hasParams (σ : Bindings) {s : Signature}
    (h : s.hasParams = false) : s.subst σ = s := by
  obtain ⟨hresult, hparameters⟩ := Bool.or_eq_false_iff.1 h
  rw [List.any_eq_false] at hparameters
  have hmap : s.parameters.map (Ty.subst σ) = s.parameters := by
    rw [List.map_congr_left fun t ht =>
      Ty.subst_of_not_hasParams σ (Bool.eq_false_iff.2 (hparameters t ht))]
    exact List.map_id' s.parameters
  rw [Signature.subst, Ty.subst_of_not_hasParams σ hresult, hmap]

namespace Method

/-- The signature of a method without arguments, if it mentions no parameters. -/
theorem signature_eq_of_fixed {m : Method} (hargs : m.args = [])
    (h : m.decl.signature.hasParams = false) : m.signature = m.decl.signature := by
  simp [signature, hargs, Signature.subst_of_not_hasParams _ h]

/-- Whether a method could be overridden by this one: it is virtual, with the same name and
signature. -/
def fits (m c : Method) : Bool :=
  c.isVirtual && c.sameNameAndSignature m

/-- Of virtual methods with one name, those fit that have the same signature. -/
theorem fits_iff {m c : Method} (hvirtual : c.isVirtual = true) (hname : c.name = m.name) :
    m.fits c = true ↔ c.signature = m.signature := by
  simp [fits, sameNameAndSignature, hvirtual, hname]

/-- Only the canonical form of the arguments matters for the canonical form of what is applied. -/
theorem canonical_withArgs (m : Method) (args : List Ty) :
    (m.withArgs (args.map Ty.canonicalArg)).canonical = (m.withArgs args).canonical := by
  unfold withArgs
  rw [List.isEmpty_map]
  split
  · rfl
  · simp [canonical, Ty.canonicalArg_canonicalArg]

/-- Arguments do not change what a method is declared as. -/
theorem decl_withArgs (m : Method) (args : List Ty) : (m.withArgs args).decl = m.decl := by
  unfold withArgs
  split <;> rfl

/-- Arguments do not change the owner of a method. -/
theorem owner_withArgs (m : Method) (args : List Ty) : (m.withArgs args).owner = m.owner := by
  unfold withArgs
  split <;> rfl

/-- An interface stays one whatever is put in place of its parameters. -/
theorem isInterface_substOwner {owner : Ty} (σ : Bindings) (h : owner.isInterface = true) :
    (substOwner σ owner).isInterface = true := by
  obtain ⟨d, hd⟩ := Ty.exists_decl?_of_isInterface h
  rw [Ty.isInterface, Ty.flags_of_decl? (decl?_substOwner σ hd), ← Ty.flags_of_decl? hd]
  exact h

end Method

namespace Program

variable {P : Program} {d r r' s s' : Method} {t : Ty}

/-! ## The same slot -/

/-- Where dispatch on a class gives a target, the called method has a slot. -/
theorem exists_slotOf_of_classTarget (hd : d.isVirtual = true)
    (hr : outcome (P.classTarget d t) = .ok r) : ∃ s, outcome (P.slotOf d.definition) = .ok s := by
  rw [P.outcome_classTarget hd] at hr
  obtain ⟨s, hs, -⟩ := bind_eq_ok.1 hr
  exact ⟨s, hs⟩

/-- If a method and its canonical form occupy the same slot, they lead to the same code. -/
theorem canonical_classTarget (hd : d.isVirtual = true)
    (hs : outcome (P.slotOf d.definition) = .ok s)
    (hs' : outcome (P.slotOf d.canonical.definition) = .ok s') (hslot : s.decl = s'.decl)
    (hr : outcome (P.classTarget d t) = .ok r)
    (hr' : outcome (P.classTarget d.canonical t) = .ok r') : r.canonical = r'.canonical := by
  rw [P.outcome_classTarget hd, hs, ok_bind] at hr
  rw [P.outcome_classTarget (m := d.canonical) hd, hs', ok_bind] at hr'
  simp only [P.slotFiller?_congr hslot] at hr
  obtain ⟨found, hfound, hr⟩ := bind_eq_ok.1 hr
  rw [hfound, ok_bind] at hr'
  cases found with
  | some found =>
    cases hr
    cases hr'
    exact (Method.canonical_withArgs found d.args).symm
  | none =>
    cases hr
    cases hr'
    exact d.canonical_canonical.symm

/-! ## Different slots -/

/-- Explicit overrides are of interface methods only. -/
def OverridesByName (P : Program) : Prop :=
  ∀ d, ∀ o ∈ (P.record d).overrides.declared, o.decl.owner.isInterface = true

variable {overrides : List Override} {u : Ty}

/-- If explicit overrides are of interface methods only, so are those of any type. -/
theorem OverridesByName.isInterface (hP : P.OverridesByName)
    (h : outcome (P.overridesOf u) = .ok overrides) {o : Override} (ho : o ∈ overrides) :
    o.decl.owner.isInterface = true := by
  obtain ⟨d, -, o₀, ho₀, rfl⟩ := P.exists_declared_of_overridesOf h ho
  exact Method.isInterface_substOwner _ (hP d o₀ ho₀)

/-- What a method overrides is then found on the way up. -/
theorem OverridesByName.overridden? (hP : P.OverridesByName) {m : Method} {next : Option Method}
    (h : outcome (P.overridden? m) = .ok next) :
    next = (P.baseType m.owner).value.bind fun base =>
      (P.chain P.walkLimit base).findSome? fun current => (P.methods current).find? m.fits := by
  rw [outcome_overridden?] at h
  obtain ⟨overrides, hoverrides, h⟩ := bind_eq_ok.1 h
  split at h
  · next o ho =>
    have hclass := List.find?_some ho
    rw [hP.isInterface hoverrides (List.mem_of_find?_eq_some ho), Bool.and_eq_true] at hclass
    cases hclass.2
  · exact (Except.ok.inj h).symm

/-- What fills a slot is then one of the type's own methods, which occupies the slot. -/
theorem OverridesByName.slotFiller? (hP : P.OverridesByName) {found : Method}
    (h : outcome (P.slotFiller? s u) = .ok (some found)) :
    found ∈ P.methods u ∧ ∃ slot, outcome (P.slotOf found) = .ok slot ∧ slot.decl = s.decl := by
  cases hoverrides : outcome (P.overridesOf u) with
  | error diagnostic =>
    rw [Program.slotFiller?, outcome_bind, hoverrides] at h
    cases h
  | ok overrides =>
    rw [outcome_slotFiller?_of_interface hoverrides fun o => hP.isInterface hoverrides] at h
    obtain ⟨hmem, hfills⟩ := findM?_eq_some h
    refine ⟨hmem, ?_⟩
    split at hfills
    · cases hfills
    · obtain ⟨slot, hslot, hfills⟩ := bind_eq_ok.1 hfills
      exact ⟨slot, hslot, eq_of_beq (Except.ok.inj hfills)⟩

/-- Without cycles, a declaration is met only once on the way up. -/
theorem Acyclic.eq_of_mem_chain (hP : P.Acyclic) {v : Ty} (hu : u ∈ P.chain P.walkLimit t)
    (hv : v ∈ P.chain P.walkLimit t) (hdecl : u.decl?.isSome = true) (h : u.decl? = v.decl?) :
    u = v := by
  refine Decidable.byContradiction fun hne => ?_
  obtain ⟨before, k, hchain, hlength, hbefore⟩ := P.exists_chain_eq_append hu
  rw [hchain] at hv
  rcases List.mem_append.1 hv with hv | hv
  · obtain ⟨-, huv⟩ := hbefore v hv
    exact hP v (h ▸ hdecl) u (P.mem_properBases_of_mem_chain huv hne) h
  · have hvu := P.chain_subset (by omega : k + 1 ≤ P.walkLimit) u hv
    exact hP u hdecl v (P.mem_properBases_of_mem_chain hvu (Ne.symm hne)) h.symm

/-- Where types do not extend themselves, methods along a chain are the same if they have one
declaration and their owners one canonical form. -/
theorem Acyclic.eq_of_mem_methods (hP : P.Acyclic) {v : Ty} {m m' : Method}
    (hu : u ∈ P.chain P.walkLimit t) (hv : v ∈ P.chain P.walkLimit t) (hm : m ∈ P.methods u)
    (hm' : m' ∈ P.methods v) (hdecl : m.decl = m'.decl)
    (howner : m.owner.canonical = m'.owner.canonical) : m = m' := by
  obtain ⟨⟨d, hd, -⟩, rfl, hargs⟩ := P.mem_methods.1 hm
  obtain ⟨-, rfl, hargs'⟩ := P.mem_methods.1 hm'
  have hsame : m.owner.decl? = m'.owner.decl? := by
    rw [← Ty.decl?_canonical, howner, Ty.decl?_canonical]
  have heq : m.owner = m'.owner := hP.eq_of_mem_chain hu hv (by rw [hd]; rfl) hsame
  cases m
  cases m'
  cases hdecl
  cases heq
  cases hargs
  cases hargs'
  rfl

/-- Where the slots of a method and its canonical form differ, the two lead to the same code only
if that is the code of the method itself. -/
theorem slot_eq_of_canonical_classTarget (hP : P.Acyclic) (hbyName : P.OverridesByName)
    (hd : d.isVirtual = true) (hs : outcome (P.slotOf d.definition) = .ok s)
    (hs' : outcome (P.slotOf d.canonical.definition) = .ok s')
    (hr : outcome (P.classTarget d t) = .ok r)
    (hr' : outcome (P.classTarget d.canonical t) = .ok r') (h : r.canonical = r'.canonical) :
    s.decl = s'.decl ∨ r.canonical = d.canonical := by
  rw [P.outcome_classTarget hd, hs, ok_bind] at hr
  rw [P.outcome_classTarget (m := d.canonical) hd, hs', ok_bind] at hr'
  obtain ⟨found, hfound, hr⟩ := bind_eq_ok.1 hr
  obtain ⟨found', hfound', hr'⟩ := bind_eq_ok.1 hr'
  cases found with
  | none =>
    cases hr
    exact .inr rfl
  | some found =>
    cases found' with
    | none =>
      cases hr'
      exact .inr (h.trans d.canonical_canonical)
    | some found' =>
      cases hr
      cases hr'
      refine .inl ?_
      obtain ⟨u, hu, hfills⟩ := exists_of_firstAnswer_eq_some hfound
      obtain ⟨u', hu', hfills'⟩ := exists_of_firstAnswer_eq_some hfound'
      obtain ⟨hmem, slot, hslot, hdecl⟩ := hbyName.slotFiller? hfills
      obtain ⟨hmem', slot', hslot', hdecl'⟩ := hbyName.slotFiller? hfills'
      -- Both are the same declaration on the same type, so their slots are the same.
      have hdeclared : found.decl = found'.decl := by
        have hdecl := congrArg Method.decl h
        simpa only [Method.canonical, Method.decl_withArgs] using hdecl
      have howner : found.owner.canonical = found'.owner.canonical := by
        have howner := congrArg Method.owner h
        simpa only [Method.canonical, Method.owner_withArgs] using howner
      cases hP.eq_of_mem_methods hu hu' hmem hmem' hdeclared howner
      cases hslot.symm.trans hslot'
      exact hdecl.symm.trans hdecl'

/-! ## Signatures that mention no parameters -/

/-- What types extend are declared types. -/
def HasDeclaredBases (P : Program) : Prop :=
  ∀ d, ∀ b ∈ (P.record d).base.join, b.decl?.isSome = true

/-- No virtual method of a given name mentions generic parameters in its signature. -/
def FixesSignatures (P : Program) (name : String) : Prop :=
  ∀ d, ∀ m ∈ (P.record d).methods, m.flags.virtual = true → m.name = name →
    m.signature.hasParams = false

/-- Two methods are the same declaration on instantiations of one type, and have a signature that
mentions no parameters. -/
structure Counterparts (a b : Method) : Prop where
  decl : a.decl = b.decl
  owner : ∃ e, a.owner.decl? = some e ∧ b.owner.decl? = some e
  args : a.args = [] ∧ b.args = []
  fixed : a.decl.signature.hasParams = false

variable {a b : Method} {u v : Ty} {e : TypeDecl}

/-- Counterparts have the same signature. -/
theorem Counterparts.signature_eq (h : Counterparts a b) : a.signature = b.signature := by
  rw [Method.signature_eq_of_fixed h.args.1 h.fixed,
    Method.signature_eq_of_fixed h.args.2 (h.decl ▸ h.fixed), h.decl]

/-- Whether a declaration fits a method does not depend on the instantiation if the signatures
mention no parameters. -/
theorem Counterparts.fits_eq (h : Counterparts a b) (hP : P.FixesSignatures a.name) {m : MethodDecl}
    (hm : m ∈ (P.record e).methods) :
    a.fits ⟨m, u, []⟩ = b.fits ⟨m, v, []⟩ := by
  cases hvirtual : m.flags.virtual with
  | false => simp [Method.fits, Method.isVirtual, Method.flags, hvirtual]
  | true =>
    by_cases hnamed : m.name = a.name
    · have hfixed := hP e m hm hvirtual hnamed
      have hu : Method.signature ⟨m, u, []⟩ = m.signature := Method.signature_eq_of_fixed rfl hfixed
      have hv : Method.signature ⟨m, v, []⟩ = m.signature := Method.signature_eq_of_fixed rfl hfixed
      simp [Method.fits, Method.isVirtual, Method.flags, Method.sameNameAndSignature, Method.name,
        hu, hv, h.signature_eq, h.decl]
    · have hother : (m.name == b.decl.name) = false := by
        rw [← h.decl]
        exact beq_eq_false_iff_ne.2 hnamed
      simp [Method.fits, Method.sameNameAndSignature, Method.name, hother, h.decl]

/-- On instantiations of one type, the first method to fit one of two counterparts is a counterpart
of the first to fit the other. -/
theorem Counterparts.rel_find? (h : Counterparts a b) (hP : P.FixesSignatures a.name)
    (hu : u.decl? = some e) (hv : v.decl? = some e) :
    Option.Rel (fun c c' => Counterparts c c' ∧ c.name = a.name)
      ((P.methods u).find? a.fits) ((P.methods v).find? b.fits) := by
  have hfind : (P.record e).methods.find? (fun m => a.fits ⟨m, u, []⟩) =
      (P.record e).methods.find? (fun m => b.fits ⟨m, v, []⟩) :=
    List.find?_congr fun m hm => h.fits_eq hP hm
  simp only [methods, hu, hv, List.find?_map, Function.comp_def]
  rw [← hfind]
  cases hfound : (P.record e).methods.find? fun m => a.fits ⟨m, u, []⟩ with
  | none => exact .none
  | some m =>
    have hfits := List.find?_some hfound
    simp only [Method.fits, Method.sameNameAndSignature, Bool.and_eq_true, beq_iff_eq] at hfits
    have hfixed := hP e m (List.mem_of_find?_eq_some hfound) hfits.1 hfits.2.1
    exact .some ⟨⟨rfl, ⟨e, hu, hv⟩, ⟨rfl, rfl⟩, hfixed⟩, hfits.2.1⟩

/-- The same holds on the way up. -/
theorem Counterparts.rel_findSome? (h : Counterparts a b) (hP : P.FixesSignatures a.name)
    (hbases : P.HasDeclaredBases) (n : Nat) (hu : u.decl? = some e) (hv : v.decl? = some e) :
    Option.Rel (fun c c' => Counterparts c c' ∧ c.name = a.name)
      ((P.chain n u).findSome? fun current => (P.methods current).find? a.fits)
      ((P.chain n v).findSome? fun current => (P.methods current).find? b.fits) := by
  induction n generalizing u v e with
  | zero => exact .none
  | succ n ih =>
    have hhere := h.rel_find? hP hu hv
    rw [chain, chain, List.findSome?_cons, List.findSome?_cons]
    generalize (P.methods u).find? a.fits = found, (P.methods v).find? b.fits = found' at hhere ⊢
    cases hhere with
    | some hsame => exact .some hsame
    | none =>
      rw [P.value_baseType_of_decl? hu, P.value_baseType_of_decl? hv]
      cases hbase : (P.record e).base.join with
      | none => exact .none
      | some base =>
        obtain ⟨e', he'⟩ := Option.isSome_iff_exists.1 (hbases e base hbase)
        exact ih (Ty.decl?_subst _ he') (Ty.decl?_subst _ he')

/-- Counterparts override counterparts. -/
theorem Counterparts.rel_overridden? (h : Counterparts a b) (hP : P.FixesSignatures a.name)
    (hbases : P.HasDeclaredBases) (hbyName : P.OverridesByName) {next next' : Option Method}
    (ha : outcome (P.overridden? a) = .ok next) (hb : outcome (P.overridden? b) = .ok next') :
    Option.Rel (fun c c' => Counterparts c c' ∧ c.name = a.name) next next' := by
  obtain ⟨e, hu, hv⟩ := h.owner
  rw [hbyName.overridden? ha, hbyName.overridden? hb]
  rw [P.value_baseType_of_decl? hu, P.value_baseType_of_decl? hv]
  cases hbase : (P.record e).base.join with
  | none => exact .none
  | some base =>
    obtain ⟨e', he'⟩ := Option.isSome_iff_exists.1 (hbases e base hbase)
    exact h.rel_findSome? hP hbases _ (Ty.decl?_subst _ he') (Ty.decl?_subst _ he')

/-- The searches for the slots of counterparts end at counterparts. -/
theorem Counterparts.slotFrom (h : Counterparts a b) (hP : P.FixesSignatures a.name)
    (hbases : P.HasDeclaredBases) (hbyName : P.OverridesByName) {n : Nat}
    (ha : outcome (P.slotFrom n a) = .ok s) (hb : outcome (P.slotFrom n b) = .ok s') :
    Counterparts s s' := by
  induction n generalizing a b with
  | zero =>
    cases ha
    cases hb
    exact h
  | succ n ih =>
    have hvirtual : b.isVirtual = a.isVirtual := congrArg (·.flags.virtual) h.decl.symm
    have hnew : b.isNewSlot = a.isNewSlot := congrArg (·.flags.newSlot) h.decl.symm
    rw [outcome_slotFrom_succ] at ha
    rw [outcome_slotFrom_succ, hvirtual, hnew] at hb
    split at ha
    · next hends =>
      rw [if_pos hends] at hb
      cases ha
      cases hb
      exact h
    · next hgoes =>
      rw [if_neg hgoes] at hb
      obtain ⟨next, hnext, ha⟩ := bind_eq_ok.1 ha
      obtain ⟨next', hnext', hb⟩ := bind_eq_ok.1 hb
      cases h.rel_overridden? hP hbases hbyName hnext hnext' with
      | none =>
        cases ha
        cases hb
        exact h
      | some hsame => exact ih hsame.1 (hsame.2 ▸ hP) ha hb

/-- A method occupies the same slot as its canonical form if virtual methods of that name mention no
parameters in their signatures. -/
theorem decl_slotOf_canonical (hd : P.Declares d) (hvirtual : d.isVirtual = true)
    (hbases : P.HasDeclaredBases) (hbyName : P.OverridesByName) (hP : P.FixesSignatures d.name)
    (hs : outcome (P.slotOf d.definition) = .ok s)
    (hs' : outcome (P.slotOf d.canonical.definition) = .ok s') : s.decl = s'.decl := by
  obtain ⟨e, he, hmem⟩ := hd
  have hcounterparts : Counterparts d.definition d.canonical.definition :=
    { decl := rfl
      owner := ⟨e, he, (Ty.decl?_canonical d.owner).trans he⟩
      args := ⟨rfl, rfl⟩
      fixed := hP e d.decl hmem hvirtual rfl }
  rw [outcome_slotOf] at hs hs'
  obtain ⟨slot, hslot, hs⟩ := bind_eq_ok.1 hs
  obtain ⟨slot', hslot', hs'⟩ := bind_eq_ok.1 hs'
  cases hs
  cases hs'
  rw [Method.decl_withArgs, Method.decl_withArgs]
  exact (hcounterparts.slotFrom hP hbases hbyName hslot hslot').decl

/-- A virtual method of a class and its canonical form lead to the same code if they occupy the same
slot, as they do if they introduce it or if methods of that name have no parameters in their
signatures.  If they occupy different slots they do so only where neither is overridden, as long as
explicit overrides are of interface methods only. -/
theorem resolve_canonicalForm (hd : P.Declares d) (hvirtual : d.isVirtual = true)
    (hclass : d.owner.isInterface = false) (hr : outcome (P.resolve d t) = .ok r)
    (hr' : outcome (P.resolve d.canonicalForm.value t) = .ok r') :
    ∃ s s', outcome (P.slotOf d.definition) = .ok s ∧
      outcome (P.slotOf d.canonicalForm.value.definition) = .ok s' ∧
      (s.decl = s'.decl → r.canonicalForm.value = r'.canonicalForm.value) ∧
      (P.Acyclic → P.OverridesByName → r.canonicalForm.value = r'.canonicalForm.value →
        s.decl = s'.decl ∨ r.canonicalForm.value = d.canonicalForm.value) ∧
      (d.isNewSlot = true ∨
        P.HasDeclaredBases ∧ P.OverridesByName ∧ P.FixesSignatures d.name → s.decl = s'.decl) := by
  simp only [Method.value_canonicalForm] at hr' ⊢
  have hclass' : d.canonical.owner.isInterface = false := (Ty.isInterface_canonical _).trans hclass
  rw [P.outcome_resolve_of_class hclass] at hr
  rw [P.outcome_resolve_of_class hclass'] at hr'
  obtain ⟨s, hs⟩ := exists_slotOf_of_classTarget hvirtual hr
  obtain ⟨s', hs'⟩ := exists_slotOf_of_classTarget (d := d.canonical) hvirtual hr'
  refine ⟨s, s', hs, hs', ?_, ?_, ?_⟩
  · exact fun hslot => canonical_classTarget hvirtual hs hs' hslot hr hr'
  · exact fun hP hbyName => slot_eq_of_canonical_classTarget hP hbyName hvirtual hs hs' hr hr'
  · rintro (hnew | ⟨hbases, hbyName, hfixed⟩)
    · have hintro : P.IntroducesSlot d.definition := .inr (.inl hnew)
      have hintro' : P.IntroducesSlot d.canonical.definition := .inr (.inl hnew)
      cases hs.symm.trans (hintro.slotOf rfl)
      cases hs'.symm.trans (hintro'.slotOf rfl)
      rfl
    · exact decl_slotOf_canonical hd hvirtual hbases hbyName hfixed hs hs'

end Program

/-! ### Handlers

A handler takes texts.  A filter is a handler of values of some type, and a logger is a filter of
texts. -/

namespace Handling

def handler : TypeDecl := { id := 19, space := "App", name := "Handler" }

def filter : TypeDecl := { id := 20, space := "App", name := "Filter", arity := 1 }

def logger : TypeDecl := { id := 21, space := "App", name := "Logger" }

/-- What takes one value and gives none. -/
def taking (t : Ty) : Signature := { result := .ofWellKnown .void, parameters := [t] }

def handle : MethodDecl :=
  { id := 0, owner := handler, name := "Handle", signature := taking (.ofWellKnown .string),
    flags := .ofVirtual }

def handleFiltered (taken : Ty) : MethodDecl :=
  { id := 1, owner := filter, name := "Handle", signature := taking taken, flags := .ofOverride }

def log : MethodDecl :=
  { id := 2, owner := logger, name := "Handle", signature := taking (.ofWellKnown .string),
    flags := .ofOverride }

def filterOf (t : Ty) : Ty := .app (.decl filter) t

def types (taken : Ty) : List TypeRecord :=
  [.ofMethods handler (some .object) [handle],
    .ofMethods filter (some (.decl handler)) [handleFiltered taken],
    .ofMethods logger (some (filterOf (.ofWellKnown .string))) [log]]

/-- What filters take is left open. -/
def program (taken : Ty) : Program := .withTypes (types taken)

/-- What a filter of values of some type does. -/
def handleBy (taken t : Ty) : Method := ⟨handleFiltered taken, filterOf t, []⟩

section Slots

variable {taken t : Ty}

/-- Walks up from filters may take a step. -/
theorem walkLimit_pos : 0 < (program taken).walkLimit :=
  Nat.succ_pos 999999999

/-- Handlers introduce the slot of what they do. -/
theorem introducesSlot_handle : (program taken).IntroducesSlot handle.method :=
  .inr (.inl rfl)

/-- What a filter takes is found by putting in what it is a filter of. -/
theorem signature_handleBy :
    (handleBy taken t).signature = taking (taken.subst { ofType := [t] }) := rfl

/-- Handlers take texts. -/
theorem signature_handle : handle.method.signature = taking (.ofWellKnown .string) := rfl

/-- Loggers take texts. -/
theorem signature_log : log.method.signature = taking (.ofWellKnown .string) := rfl

/-- A filter fits what handlers do if it takes texts. -/
theorem fits_handle : (handleBy taken t).fits handle.method = true ↔
    taken.subst { ofType := [t] } = .ofWellKnown .string := by
  rw [Method.fits_iff (m := handleBy taken t) (c := handle.method) rfl rfl, signature_handle,
    signature_handleBy]
  constructor
  · intro h
    injection h with _ hparameters
    injection hparameters with htaken
    exact htaken.symm
  · intro h
    rw [h]

/-- What a filter that takes texts overrides is what handlers do. -/
theorem overridden?_handleBy (h : taken.subst { ofType := [t] } = .ofWellKnown .string) :
    outcome ((program taken).overridden? (handleBy taken t)) = .ok (some handle.method) := by
  have hmethods : (program taken).methods (.decl handler) = [handle.method] := rfl
  have hfind : ((program taken).methods (.decl handler)).find? (handleBy taken t).fits =
      some handle.method := by
    rw [hmethods, List.find?_cons_of_pos (fits_handle.2 h)]
  exact Program.overridden?_of_base walkLimit_pos rfl rfl hfind

/-- A filter that takes texts overrides what handlers do. -/
theorem slotOf_handleBy (h : taken.subst { ofType := [t] } = .ofWellKnown .string) :
    outcome ((program taken).slotOf (handleBy taken t)) = .ok handle.method :=
  introducesSlot_handle.slotOf_overriding rfl rfl rfl (overridden?_handleBy h) walkLimit_pos

/-- A filter that takes something else introduces a slot. -/
theorem introducesSlot_handleBy (h : taken.subst { ofType := [t] } ≠ .ofWellKnown .string) :
    (program taken).IntroducesSlot (handleBy taken t) := by
  have hoverrides : outcome ((program taken).overridesOf (handleBy taken t).owner) = .ok [] := rfl
  have hbase : ((program taken).baseType (handleBy taken t).owner).value = some (.decl handler) :=
    rfl
  have hchain : (program taken).chain (program taken).walkLimit (.decl handler) =
      [.decl handler, .object] := rfl
  have hmethods : (program taken).methods (.decl handler) = [handle.method] ∧
      (program taken).methods .object = [] := ⟨rfl, rfl⟩
  have hfits : (handleBy taken t).fits handle.method = false :=
    Bool.eq_false_iff.2 fun hfits => h (fits_handle.1 hfits)
  refine .inr (.inr ?_)
  rw [Program.outcome_overridden?, hoverrides, ok_bind, hbase]
  show Except.ok (((program taken).chain (program taken).walkLimit (.decl handler)).findSome?
    fun current => ((program taken).methods current).find? (handleBy taken t).fits) = _
  rw [hchain]
  simp [hmethods, hfits]

/-- A logger overrides what filters of texts do, if they take texts. -/
theorem slotOf_log (h : taken.subst { ofType := [.ofWellKnown .string] } = .ofWellKnown .string) :
    outcome ((program taken).slotOf log.method) = .ok handle.method := by
  have hmethods : (program taken).methods (filterOf (.ofWellKnown .string)) =
      [handleBy taken (.ofWellKnown .string)] := rfl
  have hfits : log.method.fits (handleBy taken (.ofWellKnown .string)) = true := by
    rw [Method.fits_iff (m := log.method) (c := handleBy taken _) rfl rfl, signature_log,
      signature_handleBy, h]
  have hfind : ((program taken).methods (filterOf (.ofWellKnown .string))).find? log.method.fits =
      some (handleBy taken (.ofWellKnown .string)) := by
    rw [hmethods, List.find?_cons_of_pos hfits]
  have hnext : outcome ((program taken).overridden? log.method) =
      .ok (some (handleBy taken (.ofWellKnown .string))) :=
    Program.overridden?_of_base walkLimit_pos rfl rfl hfind
  have hlimit : (program taken).walkLimit = 999999998 + 1 + 1 := rfl
  rw [Program.outcome_slotOf, hlimit, MethodDecl.definition_method,
    Program.slotFrom_of_overridden? rfl rfl hnext,
    Program.slotFrom_of_overridden? rfl rfl (overridden?_handleBy h),
    introducesSlot_handle.slotFrom]
  rfl

/-- Where filters take texts, what they do leads on a logger to what loggers do. -/
theorem resolve_handleBy
    (h : taken.subst { ofType := [.ofWellKnown .string] } = .ofWellKnown .string)
    (ht : taken.subst { ofType := [t] } = .ofWellKnown .string) :
    outcome ((program taken).resolve (handleBy taken t) (.decl logger)) = .ok log.method := by
  rw [Program.outcome_resolve_of_class _ rfl]
  exact Program.classTarget_of_slotFiller? walkLimit_pos rfl (slotOf_handleBy ht)
    (Program.slotFiller?_of_methods rfl rfl rfl rfl (slotOf_log h))

end Slots

/-- Filters take texts, whatever they are filters of. -/
abbrev fixed : Program := program (.ofWellKnown .string)

/-- There are no explicit overrides among handlers. -/
theorem overridesByName_fixed : fixed.OverridesByName := by
  have hnone : ∀ r ∈ fixed.types.toList, r.overrides.declared.isEmpty = true := by decide
  intro d o ho
  rcases Program.record_mem_or_eq (P := fixed) d with hd | hd
  · rw [List.isEmpty_iff.1 (hnone _ hd)] at ho
    cases ho
  · rw [hd] at ho
    cases ho

/-- Handlers, filters and loggers extend declared types. -/
theorem hasDeclaredBases_fixed : fixed.HasDeclaredBases := by
  have hdeclared : ∀ r ∈ fixed.types.toList, ∀ b ∈ r.base.join, b.decl?.isSome = true := by decide
  intro d b hb
  rcases Program.record_mem_or_eq (P := fixed) d with hd | hd
  · exact hdeclared _ hd b hb
  · rw [hd] at hb
    cases hb

/-- No handler mentions parameters in what it takes. -/
theorem fixesSignatures_fixed : fixed.FixesSignatures "Handle" := by
  have hclosed : ∀ r ∈ fixed.types.toList, ∀ m ∈ r.methods, m.signature.hasParams = false := by
    decide
  intro d m hm _ _
  rcases Program.record_mem_or_eq (P := fixed) d with hd | hd
  · exact hclosed _ hd m hm
  · rw [hd] at hm
    cases hm

/-- What filters do is declared, whatever they are filters of. -/
theorem declares_handleBy (taken t : Ty) : (program taken).Declares (handleBy taken t) :=
  ⟨filter, rfl, List.mem_singleton_self _⟩

/-- What filters of texts do has as canonical form what filters of any references do. -/
theorem canonicalForm_handleBy (taken : Ty) :
    (handleBy taken (.ofWellKnown .string)).canonicalForm.value = handleBy taken .canon := by
  rw [Method.value_canonicalForm]
  rfl

/-- What filters of texts do leads to what loggers do, by its canonical form as well. -/
theorem resolve_canonicalForm_fixed :
    outcome (fixed.resolve (handleBy (.ofWellKnown .string) (.ofWellKnown .string))
        (.decl logger)) = .ok log.method ∧
      ∃ target, outcome (fixed.resolve
          (handleBy (.ofWellKnown .string) (.ofWellKnown .string)).canonicalForm.value
          (.decl logger)) = .ok target ∧
        log.method.canonicalForm.value = target.canonicalForm.value := by
  have hexact : outcome (fixed.resolve (handleBy (.ofWellKnown .string) (.ofWellKnown .string))
      (.decl logger)) = .ok log.method := resolve_handleBy rfl rfl
  have hshared : outcome (fixed.resolve (handleBy (.ofWellKnown .string) .canon)
      (.decl logger)) = .ok log.method := resolve_handleBy rfl rfl
  rw [← canonicalForm_handleBy] at hshared
  obtain ⟨s, s', -, -, hsame, -, hslot⟩ :=
    Program.resolve_canonicalForm (declares_handleBy _ _) rfl rfl hexact hshared
  exact ⟨hexact, log.method, hshared, hsame
    (hslot (.inr ⟨hasDeclaredBases_fixed, overridesByName_fixed, fixesSignatures_fixed⟩))⟩

/-- Filters take what they are filters of. -/
abbrev generic : Program := program (.param .type 0)

/-- Nothing that a logger extends fills the slot that the canonical form introduces: all of it
occupies the slot of handlers. -/
theorem slotFiller?_generic {u : Ty}
    (hu : u = .decl logger ∨ u = filterOf (.ofWellKnown .string) ∨ u = .decl handler ∨
      u = .object) :
    outcome (generic.slotFiller? (handleBy (.param .type 0) .canon) u) = .ok none := by
  have hoverrides : outcome (generic.overridesOf u) = .ok [] := by
    rcases hu with rfl | rfl | rfl | rfl <;> rfl
  rw [Program.outcome_slotFiller?_of_interface hoverrides (by simp)]
  refine findM?_of_forall_eq_false fun m hm => ?_
  have hslot : outcome (generic.slotOf m) = .ok handle.method := by
    rcases hu with rfl | rfl | rfl | rfl
    · rw [show m = log.method from List.mem_singleton.1 hm]
      exact slotOf_log rfl
    · rw [show m = handleBy (.param .type 0) (.ofWellKnown .string) from List.mem_singleton.1 hm]
      exact slotOf_handleBy rfl
    · rw [show m = handle.method from List.mem_singleton.1 hm]
      exact introducesSlot_handle.slotOf rfl
    · cases hm
  split
  · rfl
  · rw [hslot]
    rfl

/-- Where filters take what they are filters of, the canonical form of what they do leads on a
logger to itself. -/
theorem resolve_generic :
    outcome (generic.resolve (handleBy (.param .type 0) .canon) (.decl logger)) =
      .ok (handleBy (.param .type 0) .canon) := by
  have hintro : generic.IntroducesSlot (handleBy (.param .type 0) .canon) :=
    introducesSlot_handleBy (by simp [Ty.subst_param, Bindings.args, Ty.ofWellKnown])
  have hchain : generic.chain generic.walkLimit (.decl logger) =
      [.decl logger, filterOf (.ofWellKnown .string), .decl handler, .object] := rfl
  have hnone : ∀ u ∈ generic.chain generic.walkLimit (.decl logger),
      outcome (generic.slotFiller? (handleBy (.param .type 0) .canon) u) = .ok none := by
    intro u hu
    rw [hchain] at hu
    simp only [List.mem_cons, List.not_mem_nil, or_false] at hu
    exact slotFiller?_generic hu
  rw [Program.outcome_resolve_of_class _ rfl]
  exact Program.classTarget_of_unfilled rfl (hintro.slotOf rfl) hnone

/-- Where filters take what they are filters of, the canonical form of what filters of texts do does
not lead to what loggers do. -/
theorem exists_resolve_canonicalForm_ne : ∃ (P : Program) (d r r' : Method) (t : Ty),
    P.Declares d ∧ d.isVirtual = true ∧ d.owner.isInterface = false ∧
      d.owner ∈ (P.baseChain t).value ∧ outcome (P.resolve d t) = .ok r ∧
      outcome (P.resolve d.canonicalForm.value t) = .ok r' ∧
      r.canonicalForm.value ≠ r'.canonicalForm.value := by
  refine ⟨generic, handleBy (.param .type 0) (.ofWellKnown .string), log.method,
    handleBy (.param .type 0) .canon, .decl logger, declares_handleBy _ _, rfl, rfl, ?_,
    resolve_handleBy rfl rfl, ?_, ?_⟩
  · rw [Program.value_baseChain]
    exact List.mem_cons_of_mem _ List.mem_cons_self
  · rw [canonicalForm_handleBy]
    exact resolve_generic
  · simp only [Method.value_canonicalForm]
    intro h
    cases congrArg Method.decl h

end Handling

end AheadOfTime
