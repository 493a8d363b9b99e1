import AheadOfTime.Proofs.Program.Notes

/-!
# What a catalog lists

What a type or a method is built from is listed before it, and nothing that is listed changes its
place.  This holds of a catalog that enters only what may be spoken of, as long as taking apart what
may be spoken of and passing to canonical forms do not lead out of it.
-/

set_option autoImplicit false

namespace AheadOfTime

/-! ## What types and methods are built from -/

/-- What a type is built from. -/
def Ty.parts : Ty → List Ty
  | .app f a => f.definition :: (f.args ++ [a])
  | .array e _ => [e]
  | .pointer t | .byRef t => [t]
  | .decl _ | .param _ _ | .canon => []

/-- The definition of a type is its declaration, without arguments. -/
theorem Ty.definition_of_decl? {t : Ty} {d : TypeDecl} (h : t.decl? = some d) :
    t.definition = .decl d := by
  induction t with
  | decl e =>
    cases h
    rfl
  | app f a ihf _ => exact ihf h
  | _ => cases h

/-- The types of a signature. -/
def Signature.types (s : Signature) : List Ty :=
  s.parameters ++ [s.result]

/-- The method that a method makes more special: an instantiated one the method without arguments,
one seen through an instantiation the method as declared. -/
def Method.precursors (m : Method) : List Method :=
  if m.isTypical then [] else if m.args.isEmpty then [m.typical] else [m.definition]

/-- A method makes more special only the method as declared or the one without arguments. -/
theorem Method.eq_of_mem_precursors {m p : Method} (hp : p ∈ m.precursors) :
    p = m.typical ∨ p = m.definition := by
  unfold precursors at hp
  split at hp
  · cases hp
  · split at hp
    · exact .inl (List.mem_singleton.1 hp)
    · exact .inr (List.mem_singleton.1 hp)

/-- A method without arguments makes more special only the method as declared. -/
theorem Method.eq_of_mem_precursors_definition {m p : Method} (hp : p ∈ m.definition.precursors) :
    p = m.typical := by
  unfold precursors at hp
  split at hp
  · cases hp
  · exact List.mem_singleton.1 hp

/-- What is found in a table is kept there. -/
theorem CanonTable.getElem?_of_find? {α : Type} [BEq α] [LawfulBEq α] [Hashable α]
    {canonical : α → α} {c : CanonTable canonical} {a : α} {b : { b : α // b = canonical a }}
    (h : c.find? a = some b) : c.forms[a]? = some b.1 := by
  unfold find? at h
  split at h
  · next known =>
    cases h
    exact known
  · cases h

/-- What a table keeps after a form was added was added, or was kept before. -/
theorem CanonTable.eq_or_of_insert {α : Type} [BEq α] [LawfulBEq α] [Hashable α]
    {canonical : α → α} {c : CanonTable canonical} {a a' b' : α} {b : { b : α // b = canonical a }}
    (h : (c.insert a b).forms[a']? = some b') : b' = canonical a ∨ c.forms[a']? = some b' := by
  rw [insert, Std.HashMap.getElem?_insert] at h
  split at h
  · cases h
    exact .inl b.2
  · exact .inr h

/-- Taking apart what may be spoken of does not lead out of it. -/
structure Vocabulary.Listable (V : Vocabulary) : Prop where
  canon : V.type .canon
  canonical : ∀ {t : Ty}, V.type t → V.type t.canonical
  generic : ∀ {f a : Ty}, V.type (.app f a) → f.decl?.isSome = true
  parts : ∀ {t : Ty}, V.type t → ∀ p ∈ t.parts, V.type p
  declaring : ∀ {m : Method}, V.method m → m.owner.decl? = some m.decl.owner
  owner : ∀ {m : Method}, V.method m → V.type m.owner
  args : ∀ {m : Method}, V.method m → ∀ a ∈ m.args, V.type a
  signature : ∀ {m : Method}, V.method m → ∀ t ∈ m.signature.types, V.type t
  typical : ∀ {m : Method}, V.method m → V.method m.typical
  definition : ∀ {m : Method}, V.method m → V.method m.definition
  canonicalMethod : ∀ {m : Method}, V.method m → V.method m.canonical

namespace Catalog

/-! ## Sound catalogs -/

/-- A catalog lists what may be spoken of, everything after what it is built from. -/
structure Sound (V : Vocabulary) (c : Catalog) : Prop where
  type : ∀ t ∈ c.types.toList, V.type t
  parts : c.types.Ordered Ty.parts
  method : ∀ m ∈ c.methods.toList, V.method m
  precursors : c.methods.Ordered Method.precursors
  owner : ∀ m ∈ c.methods.toList, m.owner ∈ c.types.toList
  args : ∀ m ∈ c.methods.toList, ∀ a ∈ m.args, a ∈ c.types.toList
  signature : ∀ m ∈ c.methods.toList, ∀ t ∈ m.signature.types, t ∈ c.types.toList
  forms : ∀ t u : Ty, c.forms.forms[t]? = some u → u ∈ c.types.toList
  methodForms : ∀ m n : Method, c.methodForms.forms[m]? = some n → n ∈ c.methods.toList

/-- What a catalog lists, another one lists in the same places. -/
structure Extends (c c' : Catalog) : Prop where
  types : c.types.toList <+: c'.types.toList
  methods : c.methods.toList <+: c'.methods.toList

/-- A catalog extends itself. -/
theorem Extends.refl (c : Catalog) : c.Extends c :=
  ⟨List.prefix_rfl, List.prefix_rfl⟩

/-- A catalog that extends an extension extends the first one. -/
theorem Extends.trans {c c' c'' : Catalog} (h : c.Extends c') (h' : c'.Extends c'') :
    c.Extends c'' :=
  ⟨h.types.trans h'.types, h.methods.trans h'.methods⟩

/-- A sound catalog that extends another one. -/
structure Grown (V : Vocabulary) (c c' : Catalog) : Prop where
  sound : c'.Sound V
  kept : c.Extends c'

variable {V : Vocabulary} {c c' c'' : Catalog} {t : Ty} {m : Method}

/-- A sound catalog that stays as it is has grown soundly. -/
theorem Sound.grown (h : c.Sound V) : c.Grown V c := ⟨h, .refl c⟩

/-- A catalog may grow step by step. -/
theorem Grown.trans (h : c.Grown V c') (h' : c'.Grown V c'') : c.Grown V c'' :=
  ⟨h'.sound, h.kept.trans h'.kept⟩

/-- Listed types stay listed. -/
theorem Grown.mem (h : c.Grown V c') (ht : t ∈ c.types.toList) : t ∈ c'.types.toList :=
  h.kept.types.subset ht

/-- If a further type is listed after some others, all of them are listed then. -/
theorem Grown.concat {l : List Ty} {a : Ty} (h : c.Grown V c') (hl : ∀ p ∈ l, p ∈ c'.types.toList)
    (ha : c'.Grown V c'' ∧ a ∈ c''.types.toList) :
    c.Grown V c'' ∧ ∀ p ∈ l ++ [a], p ∈ c''.types.toList := by
  refine ⟨h.trans ha.1, List.forall_mem_append.2 ⟨fun p hp => ?_, ?_⟩⟩
  · exact ha.1.mem (hl p hp)
  · exact List.forall_mem_singleton.2 ha.2

/-- A catalog that lists nothing is sound. -/
theorem sound_default (V : Vocabulary) : (default : Catalog).Sound V where
  type := List.forall_mem_nil _
  parts := Roster.ordered_empty _
  method := List.forall_mem_nil _
  precursors := Roster.ordered_empty _
  owner := List.forall_mem_nil _
  args := List.forall_mem_nil _
  signature := List.forall_mem_nil _
  forms t u h := by
    have hnone : (default : Catalog).forms.forms[t]? = none := Std.HashMap.getElem?_empty
    rw [hnone] at h
    cases h
  methodForms m n h := by
    have hnone : (default : Catalog).methodForms.forms[m]? = none := Std.HashMap.getElem?_empty
    rw [hnone] at h
    cases h

/-- A catalog stays sound if more may be spoken of. -/
theorem Sound.mono {V' : Vocabulary} (h : c.Sound V) (htype : ∀ t, V.type t → V'.type t)
    (hmethod : ∀ m, V.method m → V'.method m) : c.Sound V' :=
  { h with
    type := fun t ht => htype t (h.type t ht)
    method := fun m hm => hmethod m (h.method m hm) }

/-! ## Entering types -/

/-- A type whose parts are listed may be entered, and is listed then. -/
theorem Sound.enterType (h : c.Sound V) (ht : V.type t) (hparts : ∀ p ∈ t.parts, p ∈ c.types.toList) :
    c.Grown V (c.enterType t).2 ∧ t ∈ (c.enterType t).2.types.toList := by
  by_cases hlisted : t ∈ c.types.toList
  · obtain ⟨u, hu⟩ := c.types.exists_find?_of_mem hlisted
    rw [Catalog.enterType, hu]
    exact ⟨h.grown, hlisted⟩
  · rw [Catalog.enterType, c.types.find?_of_not_mem hlisted]
    have hmem : ∀ u, u ∈ c.types.toList → u ∈ (c.types.insert t).toList :=
      fun u hu => (c.types.mem_toList_insert t u).2 (.inl hu)
    refine ⟨⟨?_, ⟨c.types.prefix_insert t, List.prefix_rfl⟩⟩,
      (c.types.mem_toList_insert t t).2 (.inr rfl)⟩
    constructor
    · intro u hu
      rcases (c.types.mem_toList_insert t u).1 hu with hu | rfl
      · exact h.type u hu
      · exact ht
    · exact h.parts.insert hparts
    · exact h.method
    · exact h.precursors
    · exact fun m hm => hmem _ (h.owner m hm)
    · exact fun m hm a ha => hmem _ (h.args m hm a ha)
    · exact fun m hm u hu => hmem _ (h.signature m hm u hu)
    · exact fun u v huv => hmem _ (h.forms u v huv)
    · exact h.methodForms

/-- Adding a type that is listed changes nothing. -/
theorem addType_of_mem (h : t ∈ c.types.toList) : (c.addType t).2 = c := by
  obtain ⟨u, hu⟩ := c.types.exists_find?_of_mem h
  rw [addType.eq_def, hu]

/-- Enters what a type is built from. -/
def addParts (c : Catalog) : Ty → Catalog
  | .app f a => ((c.addGeneric f).2.addType a).2
  | .array e _ => (c.addType e).2
  | .pointer t | .byRef t => (c.addType t).2
  | .decl _ | .param _ _ | .canon => c

/-- A type that is not listed is entered after its parts. -/
theorem addType_of_not_mem (h : t ∉ c.types.toList) :
    (c.addType t).2 = ((c.addParts t).enterType t).2 := by
  rw [addType.eq_def, c.types.find?_of_not_mem h]
  cases t with
  | app f a =>
    show (((c.addGeneric f).2.addType a).2.enterType
      (.app (c.addGeneric f).1.1 ((c.addGeneric f).2.addType a).1.1)).2 = _
    rw [(c.addGeneric f).1.2, ((c.addGeneric f).2.addType a).1.2, addParts]
  | array e r =>
    show ((c.addType e).2.enterType (.array (c.addType e).1.1 r)).2 = _
    rw [(c.addType e).1.2, addParts]
  | pointer t =>
    show ((c.addType t).2.enterType (.pointer (c.addType t).1.1)).2 = _
    rw [(c.addType t).1.2, addParts]
  | byRef t =>
    show ((c.addType t).2.enterType (.byRef (c.addType t).1.1)).2 = _
    rw [(c.addType t).1.2, addParts]
  | _ => rfl

/-- An applied generic type is added after what it is applied to. -/
theorem addGeneric_app (c : Catalog) (f a : Ty) :
    (c.addGeneric (.app f a)).2 = ((c.addGeneric f).2.addType a).2 := by
  rw [addGeneric]

/-- A type may be added if what it is built from may be entered, and is listed then. -/
theorem Sound.addType_of_parts (h : c.Sound V) (ht : V.type t)
    (hparts : c.Grown V (c.addParts t) ∧ ∀ p ∈ t.parts, p ∈ (c.addParts t).types.toList) :
    c.Grown V (c.addType t).2 ∧ t ∈ (c.addType t).2.types.toList := by
  by_cases hmem : t ∈ c.types.toList
  · rw [addType_of_mem hmem]
    exact ⟨h.grown, hmem⟩
  · obtain ⟨hgrown, hlisted⟩ := hparts
    rw [addType_of_not_mem hmem]
    obtain ⟨hentered, ht⟩ := hgrown.sound.enterType ht hlisted
    exact ⟨hgrown.trans hentered, ht⟩

/-- Entering a type lists it, and entering a generic type what it is built from. -/
theorem Sound.addType_addGeneric (hV : V.Listable) (t : Ty) :
    (∀ {c : Catalog}, c.Sound V → V.type t →
      c.Grown V (c.addType t).2 ∧ t ∈ (c.addType t).2.types.toList) ∧
    ∀ {c : Catalog}, c.Sound V → t.decl?.isSome = true → (∀ p ∈ t.definition :: t.args, V.type p) →
      c.Grown V (c.addGeneric t).2 ∧
        ∀ p ∈ t.definition :: t.args, p ∈ (c.addGeneric t).2.types.toList := by
  have hleaf : ∀ {u : Ty}, u.parts = [] → ∀ {c : Catalog}, c.addParts u = c → c.Sound V → V.type u →
      c.Grown V (c.addType u).2 ∧ u ∈ (c.addType u).2.types.toList := by
    intro u hu c hparts hc htype
    refine hc.addType_of_parts htype ?_
    rw [hparts, hu]
    exact ⟨hc.grown, List.forall_mem_nil _⟩
  induction t with
  | decl d =>
    refine ⟨fun hc ht => hleaf rfl rfl hc ht, fun hc _ hparts => ?_⟩
    have hdecl := hparts (.decl d) List.mem_cons_self
    exact (hc.enterType hdecl (List.forall_mem_nil _)).imp_right List.forall_mem_singleton.2
  | app f a ihf iha =>
    have hgeneric : ∀ {c : Catalog}, c.Sound V → f.decl?.isSome = true →
        (∀ p ∈ f.definition :: f.args ++ [a], V.type p) →
        c.Grown V ((c.addGeneric f).2.addType a).2 ∧
          ∀ p ∈ f.definition :: f.args ++ [a], p ∈ ((c.addGeneric f).2.addType a).2.types.toList := by
      intro c hc hdecl hparts
      obtain ⟨hfparts, ha⟩ := List.forall_mem_append.1 hparts
      obtain ⟨hf, hlisted⟩ := ihf.2 hc hdecl hfparts
      exact hf.concat hlisted (iha.1 hf.sound (ha a (List.mem_singleton_self a)))
    constructor
    · exact fun hc ht => hc.addType_of_parts ht (hgeneric hc (hV.generic ht) (hV.parts ht))
    · intro c hc hdecl hparts
      rw [addGeneric_app]
      rw [Ty.args_app] at hparts ⊢
      exact hgeneric hc hdecl hparts
  | array e r ih =>
    refine ⟨fun hc ht => hc.addType_of_parts ht ?_, fun _ hdecl => by cases hdecl⟩
    exact (ih.1 hc (hV.parts ht e (List.mem_singleton_self e))).imp_right List.forall_mem_singleton.2
  | pointer u ih =>
    refine ⟨fun hc ht => hc.addType_of_parts ht ?_, fun _ hdecl => by cases hdecl⟩
    exact (ih.1 hc (hV.parts ht u (List.mem_singleton_self u))).imp_right List.forall_mem_singleton.2
  | byRef u ih =>
    refine ⟨fun hc ht => hc.addType_of_parts ht ?_, fun _ hdecl => by cases hdecl⟩
    exact (ih.1 hc (hV.parts ht u (List.mem_singleton_self u))).imp_right List.forall_mem_singleton.2
  | param k i => exact ⟨fun hc ht => hleaf rfl rfl hc ht, fun _ hdecl => by cases hdecl⟩
  | canon => exact ⟨fun hc ht => hleaf rfl rfl hc ht, fun _ hdecl => by cases hdecl⟩

/-- Adding a type keeps a catalog sound, and the type is listed then. -/
theorem Sound.addType (hV : V.Listable) (h : c.Sound V) (ht : V.type t) :
    c.Grown V (c.addType t).2 ∧ t ∈ (c.addType t).2.types.toList :=
  (addType_addGeneric hV t).1 h ht

/-- Types are added one after the other. -/
theorem addTypes_cons (c : Catalog) (t : Ty) (ts : List Ty) :
    (c.addTypes (t :: ts)).2 = ((c.addType t).2.addTypes ts).2 := by
  rw [addTypes]

/-- Adding types keeps a catalog sound, and all of them are listed then. -/
theorem Sound.addTypes (hV : V.Listable) (h : c.Sound V) {ts : List Ty} (hts : ∀ t ∈ ts, V.type t) :
    c.Grown V (c.addTypes ts).2 ∧ ∀ t ∈ ts, t ∈ (c.addTypes ts).2.types.toList := by
  induction ts generalizing c with
  | nil => exact ⟨h.grown, List.forall_mem_nil _⟩
  | cons t ts ih =>
    obtain ⟨ht, hts⟩ := List.forall_mem_cons.1 hts
    obtain ⟨hfirst, hmem⟩ := h.addType hV ht
    obtain ⟨hrest, hmems⟩ := ih hfirst.sound hts
    rw [addTypes_cons]
    exact ⟨hfirst.trans hrest, List.forall_mem_cons.2 ⟨hrest.mem hmem, hmems⟩⟩

/-! ## Entering canonical forms -/

/-- Enters what the canonical form of a type is built from. -/
def addFormParts (c : Catalog) : Ty → Catalog
  | .app f a => ((c.addGenericForm f).2.addArgForm a (·.addForm a)).2
  | .array e _ => (c.addArgForm e (·.addForm e)).2
  | .pointer t | .byRef t => (c.addForm t).2
  | .decl _ | .param _ _ | .canon => c

/-- Nothing is entered for a canonical form that is known. -/
theorem addForm_of_some {u : { u : Ty // u = t.canonical }} (h : c.forms.find? t = some u) :
    (c.addForm t).2 = c := by
  rw [addForm.eq_def, h]

/-- Keeps the canonical form of a type after it was entered. -/
def keepForm (t : Ty) (entered : { u : Ty // u = t.canonical } × Catalog) : Catalog :=
  { entered.2 with forms := entered.2.forms.insert t entered.1 }

/-- It does not matter how the canonical form that is kept was put together. -/
theorem keepForm_enterType (c : Catalog) (t : Ty) {u : Ty} (hu : u = t.canonical) :
    keepForm t (⟨(c.enterType u).1.1, (c.enterType u).1.2.trans hu⟩, (c.enterType u).2) =
      keepForm t (c.enterType t.canonical) := by
  subst hu
  rfl

/-- A canonical form that is not known is entered after its parts. -/
theorem addForm_of_none (h : c.forms.find? t = none) :
    (c.addForm t).2 = keepForm t ((c.addFormParts t).enterType t.canonical) := by
  rw [addForm.eq_def, h]
  cases t with
  | app f a =>
    refine keepForm_enterType _ (.app f a) ?_
    rw [(c.addGenericForm f).1.2, ((c.addGenericForm f).2.addArgForm a (·.addForm a)).1.2,
      Ty.canonical_app]
  | array e r =>
    refine keepForm_enterType _ (.array e r) ?_
    rw [(c.addArgForm e (·.addForm e)).1.2, Ty.canonical_array]
  | pointer t =>
    refine keepForm_enterType _ (.pointer t) ?_
    rw [(c.addForm t).1.2, Ty.canonical]
  | byRef t =>
    refine keepForm_enterType _ (.byRef t) ?_
    rw [(c.addForm t).1.2, Ty.canonical]
  | _ => rfl

/-- A canonical form that is listed may be kept. -/
theorem Sound.keepForm {entered : { u : Ty // u = t.canonical } × Catalog}
    (h : entered.2.Sound V) (hmem : t.canonical ∈ entered.2.types.toList) :
    (keepForm t entered).Sound V :=
  { h with
    forms := fun u v huv => by
      rcases CanonTable.eq_or_of_insert huv with rfl | huv
      · exact hmem
      · exact h.forms u v huv }

/-- Adding the canonical form of an argument keeps a catalog sound, and the form is listed then. -/
theorem Sound.addArgForm (hV : V.Listable) (h : c.Sound V)
    (hform : c.Grown V (c.addForm t).2 ∧ t.canonical ∈ (c.addForm t).2.types.toList) :
    c.Grown V (c.addArgForm t (·.addForm t)).2 ∧
      t.canonicalArg ∈ (c.addArgForm t (·.addForm t)).2.types.toList := by
  unfold Catalog.addArgForm Ty.canonicalArg
  split
  · exact h.enterType hV.canon (List.forall_mem_nil _)
  · exact hform

/-- The canonical form of an applied generic type is added after that of its argument. -/
theorem addGenericForm_app (c : Catalog) (f a : Ty) : (c.addGenericForm (.app f a)).2 =
    ((c.addGenericForm f).2.addArgForm a (·.addForm a)).2 := rfl

/-- A canonical form may be added if what it is built from may be entered, and is listed then. -/
theorem Sound.addForm_of_parts (hV : V.Listable) (h : c.Sound V) (ht : V.type t)
    (hparts : c.Grown V (c.addFormParts t) ∧
      ∀ p ∈ t.canonical.parts, p ∈ (c.addFormParts t).types.toList) :
    c.Grown V (c.addForm t).2 ∧ t.canonical ∈ (c.addForm t).2.types.toList := by
  cases hfind : c.forms.find? t with
  | some u =>
    have hmem := h.forms t _ (CanonTable.getElem?_of_find? hfind)
    rw [u.2] at hmem
    rw [addForm_of_some hfind]
    exact ⟨h.grown, hmem⟩
  | none =>
    obtain ⟨hgrown, hlisted⟩ := hparts
    obtain ⟨hentered, hmem⟩ := hgrown.sound.enterType (hV.canonical ht) hlisted
    have hkept := (hgrown.trans hentered).kept
    rw [addForm_of_none hfind]
    exact ⟨⟨hentered.sound.keepForm hmem, hkept.types, hkept.methods⟩, hmem⟩

/-- Entering the canonical form of a type lists it. -/
theorem Sound.addForm_addGenericForm (hV : V.Listable) (t : Ty) :
    (∀ {c : Catalog}, c.Sound V → V.type t →
      c.Grown V (c.addForm t).2 ∧ t.canonical ∈ (c.addForm t).2.types.toList) ∧
    ∀ {c : Catalog}, c.Sound V → t.decl?.isSome = true → (∀ p ∈ t.definition :: t.args, V.type p) →
      c.Grown V (c.addGenericForm t).2 ∧ ∀ p ∈ t.canonical.definition :: t.canonical.args,
        p ∈ (c.addGenericForm t).2.types.toList := by
  induction t with
  | decl d =>
    refine ⟨fun hc ht => hc.addForm_of_parts hV ht ⟨hc.grown, List.forall_mem_nil _⟩,
      fun hc _ hparts => ?_⟩
    have hdecl := hparts (.decl d) List.mem_cons_self
    exact (hc.enterType hdecl (List.forall_mem_nil _)).imp_right List.forall_mem_singleton.2
  | app f a ihf iha =>
    have hgeneric : ∀ {c : Catalog}, c.Sound V → f.decl?.isSome = true →
        (∀ p ∈ f.definition :: f.args ++ [a], V.type p) →
        c.Grown V ((c.addGenericForm f).2.addArgForm a (·.addForm a)).2 ∧
          ∀ p ∈ f.canonical.definition :: f.canonical.args ++ [a.canonicalArg],
            p ∈ ((c.addGenericForm f).2.addArgForm a (·.addForm a)).2.types.toList := by
      intro c hc hdecl hparts
      obtain ⟨hfparts, ha⟩ := List.forall_mem_append.1 hparts
      obtain ⟨hf, hlisted⟩ := ihf.2 hc hdecl hfparts
      have hform := iha.1 hf.sound (ha a (List.mem_singleton_self a))
      exact hf.concat hlisted (hf.sound.addArgForm hV hform)
    constructor
    · exact fun hc ht => hc.addForm_of_parts hV ht (hgeneric hc (hV.generic ht) (hV.parts ht))
    · intro c hc hdecl hparts
      rw [addGenericForm_app, Ty.canonical_app, Ty.args_app]
      rw [Ty.args_app] at hparts
      exact hgeneric hc hdecl hparts
  | array e r ih =>
    refine ⟨fun hc ht => hc.addForm_of_parts hV ht ?_, fun _ hdecl => by cases hdecl⟩
    have hform := ih.1 hc (hV.parts ht e (List.mem_singleton_self e))
    exact (hc.addArgForm hV hform).imp_right List.forall_mem_singleton.2
  | pointer u ih =>
    refine ⟨fun hc ht => hc.addForm_of_parts hV ht ?_, fun _ hdecl => by cases hdecl⟩
    exact (ih.1 hc (hV.parts ht u (List.mem_singleton_self u))).imp_right List.forall_mem_singleton.2
  | byRef u ih =>
    refine ⟨fun hc ht => hc.addForm_of_parts hV ht ?_, fun _ hdecl => by cases hdecl⟩
    exact (ih.1 hc (hV.parts ht u (List.mem_singleton_self u))).imp_right List.forall_mem_singleton.2
  | param k i =>
    exact ⟨fun hc ht => hc.addForm_of_parts hV ht ⟨hc.grown, List.forall_mem_nil _⟩,
      fun _ hdecl => by cases hdecl⟩
  | canon =>
    exact ⟨fun hc ht => hc.addForm_of_parts hV ht ⟨hc.grown, List.forall_mem_nil _⟩,
      fun _ hdecl => by cases hdecl⟩

/-- Adding a canonical form keeps a catalog sound. -/
theorem Sound.addForm (hV : V.Listable) (h : c.Sound V) (ht : V.type t) :
    c.Grown V (c.addForm t).2 :=
  ((addForm_addGenericForm hV t).1 h ht).1

/-! ## Entering methods -/

/-- A method can be listed after everything that it is built from. -/
theorem Sound.insertMethod (h : c.Sound V) (hm : V.method m) (howner : m.owner ∈ c.types.toList)
    (hargs : ∀ a ∈ m.args, a ∈ c.types.toList)
    (hsignature : ∀ t ∈ m.signature.types, t ∈ c.types.toList)
    (hprecursors : ∀ p ∈ m.precursors, p ∈ c.methods.toList) :
    { c with methods := c.methods.insert m }.Sound V := by
  have hcases : ∀ {p : Method → Prop}, (∀ n ∈ c.methods.toList, p n) → p m →
      ∀ n ∈ (c.methods.insert m).toList, p n := by
    intro p hp hpm n hn
    rcases (c.methods.mem_toList_insert m n).1 hn with hn | rfl
    · exact hp n hn
    · exact hpm
  constructor
  · exact h.type
  · exact h.parts
  · exact hcases h.method hm
  · exact h.precursors.insert hprecursors
  · exact hcases h.owner howner
  · exact hcases h.args hargs
  · exact hcases h.signature hsignature
  · exact h.forms
  · exact fun n n' hn => (c.methods.mem_toList_insert m n').2 (.inl (h.methodForms n n' hn))

/-- Entering a method that is listed changes nothing. -/
theorem enterMethod_of_mem (h : m ∈ c.methods.toList) : (c.enterMethod m).2 = c := by
  obtain ⟨n, hn⟩ := c.methods.exists_find?_of_mem h
  rw [enterMethod, hn]

/-- A method that is not listed is entered after the types of its signature. -/
theorem enterMethod_of_not_mem (h : m ∉ c.methods.toList) : (c.enterMethod m).2 =
    { ((c.addTypes m.signature.parameters).2.addType m.signature.result).2 with
      methods := Roster.insert
        ((c.addTypes m.signature.parameters).2.addType m.signature.result).2.methods m } := by
  rw [enterMethod, c.methods.find?_of_not_mem h]

/-- A method whose parts are listed may be entered, and is listed then. -/
theorem Sound.enterMethod (hV : V.Listable) (h : c.Sound V) (hm : V.method m)
    (howner : m.owner ∈ c.types.toList) (hargs : ∀ a ∈ m.args, a ∈ c.types.toList)
    (hprecursors : ∀ p ∈ m.precursors, p ∈ c.methods.toList) :
    c.Grown V (c.enterMethod m).2 ∧ m ∈ (c.enterMethod m).2.methods.toList := by
  by_cases hmem : m ∈ c.methods.toList
  · rw [enterMethod_of_mem hmem]
    exact ⟨h.grown, hmem⟩
  · rw [enterMethod_of_not_mem hmem]
    have hsignature := List.forall_mem_append.1 (hV.signature hm)
    obtain ⟨hfirst, hparameters⟩ := h.addTypes hV hsignature.1
    obtain ⟨hsecond, hresult⟩ :=
      hfirst.sound.addType hV (hsignature.2 m.signature.result (List.mem_singleton_self _))
    have hgrown := hfirst.trans hsecond
    generalize ((c.addTypes m.signature.parameters).2.addType m.signature.result).2 = c' at *
    have hlisted : ∀ t ∈ m.signature.types, t ∈ c'.types.toList :=
      List.forall_mem_append.2
        ⟨fun p hp => hsecond.mem (hparameters p hp), List.forall_mem_singleton.2 hresult⟩
    refine ⟨⟨?_, hgrown.kept.types, hgrown.kept.methods.trans (c'.methods.prefix_insert m)⟩,
      (c'.methods.mem_toList_insert m m).2 (.inr rfl)⟩
    exact hgrown.sound.insertMethod hm (hgrown.mem howner) (fun a ha => hgrown.mem (hargs a ha))
      hlisted fun p hp => hgrown.kept.methods.subset (hprecursors p hp)

/-- With a type its declaration is listed. -/
theorem Sound.declared (h : c.Sound V) (ht : t ∈ c.types.toList) {d : TypeDecl}
    (hd : t.decl? = some d) : .decl d ∈ c.types.toList := by
  cases t with
  | decl e =>
    cases hd
    exact ht
  | app f a =>
    have hdefinition := h.parts.mem ht f.definition List.mem_cons_self
    rwa [Ty.definition_of_decl? (t := f) hd] at hdefinition
  | _ => cases hd

/-- A method that is not listed is entered after its owner, the method as declared, the method without
arguments and the arguments. -/
theorem addMethod_of_not_mem (h : m ∉ c.methods.toList) : (c.addMethod m).2 =
    (((((c.addType m.owner).2.enterMethod m.typical).2.enterMethod m.definition).2.addTypes
      m.args).2.enterMethod m).2 := by
  rw [addMethod, c.methods.find?_of_not_mem h]
  show (((((c.addType m.owner).2.enterMethod m.typical).2.enterMethod
    ⟨m.decl, (c.addType m.owner).1.1, []⟩).2.addTypes m.args).2.enterMethod
      ⟨m.decl, (c.addType m.owner).1.1, (((((c.addType m.owner).2.enterMethod
        m.typical).2.enterMethod ⟨m.decl, (c.addType m.owner).1.1, []⟩).2.addTypes
          m.args).1.1)⟩).2 = _
  rw [(Catalog.addTypes _ m.args).1.2, (c.addType m.owner).1.2]
  rfl

/-- Adding a method keeps a catalog sound, and the method is listed then. -/
theorem Sound.addMethod (hV : V.Listable) (h : c.Sound V) (hm : V.method m) :
    c.Grown V (c.addMethod m).2 ∧ m ∈ (c.addMethod m).2.methods.toList := by
  by_cases hmem : m ∈ c.methods.toList
  · obtain ⟨n, hn⟩ := c.methods.exists_find?_of_mem hmem
    rw [Catalog.addMethod, hn]
    exact ⟨h.grown, hmem⟩
  · rw [addMethod_of_not_mem hmem]
    obtain ⟨hfirst, howner⟩ := h.addType hV (hV.owner hm)
    have hdeclared := hfirst.sound.declared howner (hV.declaring hm)
    obtain ⟨hsecond, htypical⟩ := hfirst.sound.enterMethod hV (hV.typical hm) hdeclared
      (List.forall_mem_nil _) (List.forall_mem_nil _)
    obtain ⟨hthird, hdefinition⟩ := hsecond.sound.enterMethod hV (hV.definition hm)
      (hsecond.mem howner) (List.forall_mem_nil _) fun p hp => by
        rw [Method.eq_of_mem_precursors_definition hp]
        exact htypical
    obtain ⟨hfourth, hargs⟩ := hthird.sound.addTypes hV (hV.args hm)
    have hkept := hthird.trans hfourth
    obtain ⟨hfifth, hentered⟩ := hfourth.sound.enterMethod hV hm (hkept.mem (hsecond.mem howner)) hargs
      fun p hp => by
        rcases Method.eq_of_mem_precursors hp with rfl | rfl
        · exact hkept.kept.methods.subset htypical
        · exact hfourth.kept.methods.subset hdefinition
    exact ⟨((hfirst.trans hsecond).trans hkept).trans hfifth, hentered⟩

/-! ## Entering canonical forms of methods -/

/-- Keeps the canonical form of a method after it was entered. -/
def keepMethodForm (m : Method) (entered : { n : Method // n = m.canonical } × Catalog) : Catalog :=
  { entered.2 with methodForms := entered.2.methodForms.insert m entered.1 }

/-- It does not matter how the canonical form of a method that is kept was put together. -/
theorem keepMethodForm_addMethod (c : Catalog) (m : Method) {n : Method} (hn : n = m.canonical) :
    keepMethodForm m (⟨(c.addMethod n).1.1, (c.addMethod n).1.2.trans hn⟩, (c.addMethod n).2) =
      keepMethodForm m (c.addMethod m.canonical) := by
  subst hn
  rfl

/-- Nothing is entered for a definition whose canonical form is known. -/
theorem addDefinitionForm_of_some {n : { n : Method // n = m.definition.canonical }}
    (h : c.methodForms.find? m.definition = some n) : (c.addDefinitionForm m).2 = c := by
  rw [addDefinitionForm, h]

/-- The canonical form of a method without arguments is entered after that of its owner. -/
theorem addDefinitionForm_of_none (h : c.methodForms.find? m.definition = none) :
    (c.addDefinitionForm m).2 = keepMethodForm m.definition
      ((c.addForm m.owner).2.addMethod m.definition.canonical) := by
  rw [addDefinitionForm, h]
  refine keepMethodForm_addMethod _ m.definition ?_
  rw [(c.addForm m.owner).1.2]
  rfl

/-- Nothing is entered for a method whose canonical form is known. -/
theorem addMethodForm_of_some {n : { n : Method // n = m.canonical }}
    (h : c.methodForms.find? m = some n) : (c.addMethodForm m).2 = c := by
  rw [addMethodForm, h]

/-- The canonical form of a method is entered after that of the method without arguments, and those of
the arguments. -/
theorem addMethodForm_of_none (h : c.methodForms.find? m = none) :
    (c.addMethodForm m).2 = keepMethodForm m
      (((c.addDefinitionForm m).2.addArgForms m.args).2.addMethod m.canonical) := by
  rw [addMethodForm, h]
  refine keepMethodForm_addMethod _ m ?_
  rw [(c.addDefinitionForm m).1.2, ((c.addDefinitionForm m).2.addArgForms m.args).1.2]
  rfl

/-- Adding the canonical forms of arguments keeps a catalog sound. -/
theorem Sound.addArgForms (hV : V.Listable) (h : c.Sound V) {ts : List Ty}
    (hts : ∀ t ∈ ts, V.type t) : c.Grown V (c.addArgForms ts).2 := by
  induction ts generalizing c with
  | nil => exact h.grown
  | cons t ts ih =>
    obtain ⟨ht, hts⟩ := List.forall_mem_cons.1 hts
    have hfirst := (h.addArgForm hV ((addForm_addGenericForm hV t).1 h ht)).1
    exact hfirst.trans (ih hfirst.sound hts)

/-- Entering and keeping the canonical form of a method lists it. -/
theorem Grown.keepMethodForm (hV : V.Listable) (h : c.Grown V c') (hm : V.method m) :
    c.Grown V (keepMethodForm m (c'.addMethod m.canonical)) ∧
      m.canonical ∈ (keepMethodForm m (c'.addMethod m.canonical)).methods.toList := by
  obtain ⟨hadded, hmem⟩ := h.sound.addMethod hV (hV.canonicalMethod hm)
  have hkept := (h.trans hadded).kept
  refine ⟨⟨{ hadded.sound with methodForms := fun n n' hn => ?_ }, hkept.types, hkept.methods⟩, hmem⟩
  rcases CanonTable.eq_or_of_insert hn with rfl | hn
  · exact hmem
  · exact hadded.sound.methodForms n n' hn

/-- Adding the canonical form of a definition keeps a catalog sound. -/
theorem Sound.addDefinitionForm (hV : V.Listable) (h : c.Sound V) (hm : V.method m) :
    c.Grown V (c.addDefinitionForm m).2 := by
  cases hfind : c.methodForms.find? m.definition with
  | some n =>
    rw [addDefinitionForm_of_some hfind]
    exact h.grown
  | none =>
    rw [addDefinitionForm_of_none hfind]
    exact ((h.addForm hV (hV.owner hm)).keepMethodForm hV (hV.definition hm)).1

/-- Entering the canonical form of a method lists it. -/
theorem Sound.addMethodForm (hV : V.Listable) (h : c.Sound V) (hm : V.method m) :
    c.Grown V (c.addMethodForm m).2 ∧ m.canonical ∈ (c.addMethodForm m).2.methods.toList := by
  cases hfind : c.methodForms.find? m with
  | some n =>
    rw [addMethodForm_of_some hfind]
    have hmem := h.methodForms m _ (CanonTable.getElem?_of_find? hfind)
    rw [n.2] at hmem
    exact ⟨h.grown, hmem⟩
  | none =>
    rw [addMethodForm_of_none hfind]
    have hdefinition := h.addDefinitionForm hV hm
    exact (hdefinition.trans (hdefinition.sound.addArgForms hV (hV.args hm))).keepMethodForm hV hm

/-! ## Asking questions -/

/-- Whatever may be spoken of may be added to a sound catalog. -/
theorem Sound.add (hV : V.Listable) (h : c.Sound V) {e : Entity} (he : V.HasEntity e) :
    c.Grown V (c.add e) := by
  cases e with
  | type t => exact (h.addType hV he).1
  | form t => exact h.addForm hV he
  | method m => exact (h.addMethod hV he).1
  | methodForm m => exact (h.addMethodForm hV he).1
  | overrides d =>
    show c.Grown V (c.close d)
    unfold close
    split
    · exact h.grown
    · exact ⟨{ h with }, ⟨List.prefix_rfl, List.prefix_rfl⟩⟩

/-- A question that notes only what may be spoken of keeps a catalog sound. -/
theorem Sound.run (hV : V.Listable) (h : c.Sound V) {α : Type} {q : Tracked α}
    (hq : Notes V.HasEntity q) : c.Grown V (q.run c).2 := by
  obtain ⟨items, hitems, hrun⟩ := hq
  rw [hrun]
  clear hrun
  induction items generalizing c with
  | nil => exact h.grown
  | cons e items ih =>
    obtain ⟨he, hitems⟩ := List.forall_mem_cons.1 hitems
    have hadd := h.add hV he
    exact hadd.trans (ih hadd.sound hitems)

end Catalog

end AheadOfTime
