import AheadOfTime.Proofs.Interning
import AheadOfTime.Proofs.Ty.Bounded

/-!
# What shares a canonical form

Types have the same canonical form if nothing but reference types tells them apart, in places where
all reference types look alike: as generic arguments and as array elements.  Here that is said
without canonical forms, by following how the types are put together, and then shown to be the same.
Behind a pointer or a reference to a location, and at the top, even reference types are told apart.

A world gives a canonical form that it knows from its table.  That is no other than the form which it
would compute if it knew none.
-/

set_option autoImplicit false

namespace AheadOfTime

/-! ## Types that are equal up to sharing -/

namespace Ty

mutual

/-- Types that are equal up to which reference types are the arguments and the elements. -/
inductive SameUpToSharing : Ty → Ty → Prop
  | named (d : TypeDecl) {as bs : List Ty} : as.length = bs.length →
      (∀ (i : Nat) (a b : Ty), as[i]? = some a → bs[i]? = some b → Shareable a b) →
      SameUpToSharing (.named d as) (.named d bs)
  | array {s t : Ty} (rank : Option Nat) : Shareable s t →
      SameUpToSharing (.array s rank) (.array t rank)
  | pointer {s t : Ty} : SameUpToSharing s t → SameUpToSharing (.pointer s) (.pointer t)
  | byRef {s t : Ty} : SameUpToSharing s t → SameUpToSharing (.byRef s) (.byRef t)
  | param (k : ParamKind) (i : Nat) : SameUpToSharing (.param k i) (.param k i)
  | canon : SameUpToSharing .canon .canon

/-- Types that code does not tell apart where they are arguments or elements. -/
inductive Shareable : Ty → Ty → Prop
  | references {a b : Ty} : a.isReference = true → b.isReference = true → Shareable a b
  | values {a b : Ty} : a.isReference = false → b.isReference = false → SameUpToSharing a b →
      Shareable a b

end

/-- Types that are the same up to sharing have one canonical form. -/
theorem SameUpToSharing.canonical_eq {a b : Ty} (h : a.SameUpToSharing b) :
    a.canonical = b.canonical := by
  -- on both relations at once: shareable types have the same form in the place of an argument
  refine @SameUpToSharing.rec (fun a b _ => a.canonical = b.canonical)
    (fun a b _ => a.canonicalArg = b.canonicalArg) ?named ?array ?pointer ?byRef
    (fun _ _ => rfl) rfl ?references ?values a b h
  case named =>
    intro d as bs hlength _ ih
    have hargs : as.map canonicalArg = bs.map canonicalArg := by
      refine List.ext_getElem (by simpa using hlength) fun i ha hb => ?_
      rw [List.length_map] at ha hb
      rw [List.getElem_map, List.getElem_map]
      exact ih i _ _ (List.getElem?_eq_getElem ha) (List.getElem?_eq_getElem hb)
    rw [canonical_named, canonical_named, hargs]
  case array =>
    intro s t rank _ ih
    rw [canonical_array, canonical_array, ih]
  case pointer =>
    intro s t _ ih
    rw [canonical, canonical, ih]
  case byRef =>
    intro s t _ ih
    rw [canonical, canonical, ih]
  case references =>
    intro a b ha hb
    exact canonicalArg_eq_iff.2 (.inl ⟨ha, hb⟩)
  case values =>
    intro a b _ _ _ ih
    exact canonicalArg_eq_iff.2 (.inr ih)

/-- In the place of an argument, a reference is replaced by a reference and a value by a value. -/
theorem isReference_canonicalArg (t : Ty) : t.canonicalArg.isReference = t.isReference := by
  unfold canonicalArg
  split
  · next h => exact h.symm
  · exact isReference_canonical t

/-- Types that look the same as arguments are shareable, if those with the same canonical form are
equal up to sharing. -/
theorem shareable_of_canonicalArg_eq {a b : Ty} (h : a.canonicalArg = b.canonicalArg)
    (hsame : a.canonical = b.canonical → a.SameUpToSharing b) : a.Shareable b := by
  have href : a.isReference = b.isReference := by
    rw [← isReference_canonicalArg, h, isReference_canonicalArg]
  cases ha : a.isReference with
  | true => exact .references ha (href.symm.trans ha)
  | false =>
    rcases canonicalArg_eq_iff.1 h with ⟨ha', -⟩ | h
    · exact absurd (ha.symm.trans ha') Bool.false_ne_true
    · exact .values ha (href.symm.trans ha) (hsame h)

/-- The arguments of a type are formed from what the type is formed from. -/
theorem FormedFrom.args {D : TypeDecl → Prop} {t a : Ty} (ht : t.FormedFrom D) (ha : a ∈ t.args) :
    a.FormedFrom D :=
  over_formed_iff.1 ((over_formed_iff.2 ht).args a ha)

/-- Types that are put together as they should be have the same canonical form only if they are equal
up to sharing. -/
theorem FormedFrom.sameUpToSharing {D E : TypeDecl → Prop} {a b : Ty} (ha : a.FormedFrom D)
    (hb : b.FormedFrom E) (h : a.canonical = b.canonical) : a.SameUpToSharing b := by
  -- arguments, elements and targets are nested less deep
  induction hdepth : a.depth using Nat.strong_induction_on generalizing a b with
  | h n ih =>
    subst hdepth
    have hdecl : a.decl? = b.decl? := by rw [← decl?_canonical, h, decl?_canonical]
    cases hd : a.decl? with
    | some d =>
      have hargs : a.args.map canonicalArg = b.args.map canonicalArg := by
        rw [← args_canonical, h, args_canonical]
      rw [← named_of_decl? hd, ← named_of_decl? (hdecl.symm.trans hd)]
      refine .named d (by simpa using congrArg List.length hargs) fun i x y hx hy => ?_
      have hxy : x.canonicalArg = y.canonicalArg := by
        simpa [hx, hy] using congrArg (·[i]?) hargs
      have hx := List.mem_of_getElem? hx
      exact shareable_of_canonicalArg_eq hxy fun hcanonical =>
        ih _ (depth_lt_of_mem_args hx) (ha.args hx) (hb.args (List.mem_of_getElem? hy)) hcanonical rfl
    | none =>
      cases a with
      | decl d => cases hd
      | app f x => exact absurd ha.1 (by rw [show f.decl? = none from hd]; exact Bool.false_ne_true)
      | array s r =>
        cases b with
        | array t r' =>
          rw [canonical_array, canonical_array, array.injEq] at h
          obtain ⟨hst, rfl⟩ := h
          exact .array r (shareable_of_canonicalArg_eq hst fun hcanonical =>
            ih _ (Nat.lt_succ_self s.depth) ha.2 hb.2 hcanonical rfl)
        | _ => cases h
      | pointer s =>
        cases b with
        | pointer t => exact .pointer (ih _ (Nat.lt_succ_self s.depth) ha hb (pointer.inj h) rfl)
        | _ => cases h
      | byRef s =>
        cases b with
        | byRef t => exact .byRef (ih _ (Nat.lt_succ_self s.depth) ha hb (byRef.inj h) rfl)
        | _ => cases h
      | param k i =>
        cases b with
        | param k' i' =>
          cases h
          exact .param k i
        | _ => cases h
      | canon =>
        cases b with
        | canon => exact .canon
        | _ => cases h

/-- Types that are put together as they should be have one canonical form exactly if they are equal
up to sharing. -/
theorem FormedFrom.canonical_eq_iff {D E : TypeDecl → Prop} {a b : Ty} (ha : a.FormedFrom D)
    (hb : b.FormedFrom E) : a.canonical = b.canonical ↔ a.SameUpToSharing b :=
  ⟨ha.sameUpToSharing hb, SameUpToSharing.canonical_eq⟩

end Ty

/-! ## Canonical forms in a world -/

/-- A form that was added is kept. -/
theorem CanonTable.getElem?_insert_self {α : Type} [BEq α] [LawfulBEq α] [Hashable α]
    {canonical : α → α} (c : CanonTable canonical) (a : α) (b : { b : α // b = canonical a }) :
    (c.insert a b).forms[a]? = some (canonical a) := by
  rw [insert, Std.HashMap.getElem?_insert_self, b.2]

/-- After the canonical form of a type was entered, it is known. -/
theorem Catalog.getElem?_forms_addForm (c : Catalog) (t : Ty) :
    (c.addForm t).2.forms.forms[t]? = some t.canonical := by
  cases hfind : c.forms.find? t with
  | some u => rw [addForm_of_some hfind, CanonTable.getElem?_of_find? hfind, u.2]
  | none =>
    rw [addForm_of_none hfind]
    exact CanonTable.getElem?_insert_self _ t _

/-- After the canonical form of a method was entered, it is known. -/
theorem Catalog.getElem?_methodForms_addMethodForm (c : Catalog) (m : Method) :
    (c.addMethodForm m).2.methodForms.forms[m]? = some m.canonical := by
  cases hfind : c.methodForms.find? m with
  | some n => rw [addMethodForm_of_some hfind, CanonTable.getElem?_of_find? hfind, n.2]
  | none =>
    rw [addMethodForm_of_none hfind]
    exact CanonTable.getElem?_insert_self _ m _

namespace World

/-- The answer that a world gives to a question. -/
def answer {α : Type} (w : World) (q : Tracked α) : α :=
  (w.ask q).1

/-- A world with the same program that lists nothing and knows no canonical form. -/
def forgetful (w : World) : World :=
  { w with catalog := default }

/-- The canonical form that a world knows of a type. -/
def knownForm? (w : World) (t : Ty) : Option Ty :=
  w.catalog.forms.forms[t]?

/-- The canonical form that a world knows of a method. -/
def knownMethodForm? (w : World) (m : Method) : Option Method :=
  w.catalog.methodForms.forms[m]?

/-- What a world answers is the value of the question. -/
theorem answer_eq_value {α : Type} (w : World) (q : Tracked α) : w.answer q = q.value :=
  q.fst_run w.catalog

/-- Every world answers the same when asked for the canonical form of a type. -/
@[simp] theorem answer_canonicalForm (w : World) (t : Ty) :
    w.answer t.canonicalForm = t.canonical := by
  rw [answer_eq_value, Ty.value_canonicalForm]

/-- Every world answers the same when asked for the canonical form of a method. -/
@[simp] theorem answer_methodCanonicalForm (w : World) (m : Method) :
    w.answer m.canonicalForm = m.canonical := by
  rw [answer_eq_value, Method.value_canonicalForm]

/-- What canonical forms are, whenever they are asked for.  That of a type is its own canonical form,
is a reference type if the type is one, and is shared by exactly the types that are equal to it up to
sharing; that of a method is its own, of the same declaration and on the canonical form of the owner.
What a world knows of canonical forms of types and of methods, having been asked, is what it would
answer if it knew none. -/
theorem canonicalForm_exact {w w' : World} (hw : w.Reachable) (hsteps : w.Steps w') :
    (∀ a b : Ty, w.program.HasType a → w'.program.HasType b →
      w'.answer (w.answer a.canonicalForm).canonicalForm = w.answer a.canonicalForm ∧
      (w.answer a.canonicalForm).isReference = a.isReference ∧
      (w.answer a.canonicalForm = w'.answer b.canonicalForm ↔ a.SameUpToSharing b)) ∧
    (∀ m : Method,
      w'.answer (w.answer m.canonicalForm).canonicalForm = w.answer m.canonicalForm ∧
      (w.answer m.canonicalForm).typical = m.typical ∧
      (w.answer m.canonicalForm).owner = w'.answer m.owner.canonicalForm) ∧
    (∀ t : Ty, w.answer t.canonicalForm = w.forgetful.answer t.canonicalForm ∧
      (w.ask t.canonicalForm).2.knownForm? t = some (w.forgetful.answer t.canonicalForm) ∧
      ∀ u, w'.knownForm? t = some u →
        u = w.forgetful.answer t.canonicalForm ∧ u ∈ w'.catalog.types.toList) ∧
    ∀ m : Method, w.answer m.canonicalForm = w.forgetful.answer m.canonicalForm ∧
      (w.ask m.canonicalForm).2.knownMethodForm? m = some (w.forgetful.answer m.canonicalForm) ∧
      ∀ n, w'.knownMethodForm? m = some n →
        n = w.forgetful.answer m.canonicalForm ∧ n ∈ w'.catalog.methods.toList := by
  have hcatalog := (hw.sound.steps hsteps).1.catalog
  refine ⟨fun a b ha hb => ?_, fun m => ?_, fun t => ?_, fun m => ?_⟩
  · simp only [answer_canonicalForm]
    exact ⟨a.canonical_canonical, a.isReference_canonical, Ty.FormedFrom.canonical_eq_iff ha hb⟩
  · simp only [answer_methodCanonicalForm, answer_canonicalForm]
    exact ⟨m.canonical_canonical, rfl, rfl⟩
  · simp only [answer_canonicalForm, true_and]
    exact ⟨w.catalog.getElem?_forms_addForm t,
      fun u hu => ⟨w'.catalog.forms.sound t u hu, hcatalog.forms t u hu⟩⟩
  · simp only [answer_methodCanonicalForm, true_and]
    exact ⟨w.catalog.getElem?_methodForms_addMethodForm m,
      fun n hn => ⟨w'.catalog.methodForms.sound m n hn, hcatalog.methodForms m n hn⟩⟩

end World

namespace Picking

/-- A box of strings and a box of objects are different, but after the canonical form of the one was
asked for, that of the other is the same. -/
theorem canonicalForm_exact_boxes : ∃ (box : TypeDecl) (w : World) (strings objects : Ty),
    strings = .named box [.ofWellKnown .string] ∧ objects = .named box [.object] ∧
    strings ≠ objects ∧ w.Reachable ∧ w.Steps (w.ask strings.canonicalForm).2 ∧
    w.program.HasType strings ∧ (w.ask strings.canonicalForm).2.program.HasType objects ∧
    w.answer strings.canonicalForm =
      (w.ask strings.canonicalForm).2.answer objects.canonicalForm := by
  obtain ⟨box, pick, w, -, harity, -, -, hreach, hbox, -⟩ := exists_declare
  have hwellKnown := hreach.sound.program.grounded.wellKnown
  have hboxOf : ∀ x : WellKnown, w.program.HasType (.named box [.ofWellKnown x]) :=
    fun x => ⟨rfl, hbox, hwellKnown x⟩
  have hstep : w.Steps (w.ask (Ty.named box [.ofWellKnown .string]).canonicalForm).2 :=
    .single (.ask (.canonicalType (hboxOf .string)))
  refine ⟨box, w, _, _, rfl, rfl, ?_, hreach, hstep, hboxOf .string, hboxOf .object, ?_⟩
  · simp [Ty.named, Ty.ofWellKnown, Ty.object, WellKnown.decl, WellKnown.name]
  · refine ((World.canonicalForm_exact hreach hstep).1 _ _ (hboxOf .string) (hboxOf .object)).2.2.2 ?_
    refine .named box rfl fun i a b ha hb => ?_
    obtain ⟨rfl, rfl⟩ : i = 0 ∧ a = .ofWellKnown .string := by
      cases i <;> simp_all
    cases hb
    exact .references rfl rfl

end Picking

end AheadOfTime
