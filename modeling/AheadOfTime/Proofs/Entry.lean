import AheadOfTime.Proofs.Catalog
import AheadOfTime.Proofs.Handle

/-!
# Entries of the catalog

Seen through handles, a type or a method of the catalog has a shape, whose parts are handles again,
and some data that is kept with it.  In a sound catalog two entries of the same shape are one entry,
parts have smaller numbers than what is built from them, and the data are what the shapes make of the
data of the parts.
-/

set_option autoImplicit false

namespace AheadOfTime

/-! ## Types seen through handles -/

/-- What a type is put together by. -/
inductive TypeFormer where
  | declared (d : TypeDecl)
  /-- The parts are the definition and the arguments. -/
  | instantiated
  | array (rank : Option Nat)
  | pointer
  | byRef
  | param (kind : ParamKind) (index : Nat)
  | canon
deriving DecidableEq, Repr

/-- How a type is put together; its parts are handles. -/
structure TypeShape where
  former : TypeFormer
  parts : List Handle
deriving DecidableEq, Repr

/-- What is kept with a type. -/
structure TypeData where
  depth : Nat := 0
  hasParams : Bool := false
  hasCanon : Bool := false
deriving DecidableEq, Repr

/-- What is kept with a type over others.  It is one level deeper than they are, and mentions what
they mention. -/
def TypeData.over (parts : List TypeData) : TypeData where
  depth := (parts.map depth).foldl max 0 + 1
  hasParams := parts.any hasParams
  hasCanon := parts.any hasCanon

/-- What is kept with a type, given what is kept with its parts. -/
def TypeFormer.data (parts : List TypeData) : TypeFormer → TypeData
  | .declared _ => {}
  | .instantiated => .over parts.tail
  | .array _ | .pointer | .byRef => .over parts
  | .param _ _ => { hasParams := true }
  | .canon => { hasCanon := true }

/-- What a catalog says about a type. -/
structure TypeEntry where
  shape : TypeShape
  data : TypeData
  flags : TypeFlags
  name : String
deriving DecidableEq, Repr

namespace Ty

/-- What a type is put together by. -/
def former : Ty → TypeFormer
  | .decl d => .declared d
  | .app _ _ => .instantiated
  | .array _ rank => .array rank
  | .pointer _ => .pointer
  | .byRef _ => .byRef
  | .param k i => .param k i
  | .canon => .canon

/-- What is kept with a type. -/
def data (t : Ty) : TypeData where
  depth := t.depth
  hasParams := t.hasParams
  hasCanon := t.hasCanon

/-- What a catalog says about a type whose parts have given handles. -/
def entry (t : Ty) (parts : List Handle) : TypeEntry where
  shape := ⟨t.former, parts⟩
  data := t.data
  flags := t.flags
  name := t.name

/-- A type is its definition applied to its arguments. -/
theorem foldl_app_args (t : Ty) : t.args.foldl app t.definition = t := by
  induction t with
  | app f a ihf _ =>
    rw [args_app, List.foldl_append, definition, ihf]
    rfl
  | _ => rfl

/-- A type is given by its former and its parts. -/
theorem eq_of_former_of_parts {t u : Ty} (hformer : t.former = u.former)
    (hparts : t.parts = u.parts) : t = u := by
  cases t with
  | app f a =>
    cases u with
    | app g b =>
      obtain ⟨hdefinition, hargs⟩ := List.cons.inj hparts
      rw [← foldl_app_args (.app f a), ← foldl_app_args (.app g b), args_app, args_app, hargs]
      show (g.args ++ [b]).foldl app f.definition = (g.args ++ [b]).foldl app g.definition
      rw [hdefinition]
    | _ => cases hformer
  | _ =>
    cases u <;> cases hformer
    cases hparts
    rfl

/-- What is put together from a declaration alone is the declaration. -/
theorem eq_decl_of_former {t : Ty} {d : TypeDecl} (h : t.former = .declared d) : t = .decl d := by
  cases t <;> cases h
  rfl

/-- What is kept with an applied type depends on the arguments only. -/
theorem data_app (f a : Ty) (hf : f.decl?.isSome = true) :
    (app f a).data = .over ((f.args ++ [a]).map data) := by
  induction f generalizing a with
  | decl d => simp [data, TypeData.over, depth, hasParams, hasCanon, args, argsBefore]
  | app g b ihg _ =>
    have hg := ihg b hf
    simp only [data, TypeData.over, TypeData.mk.injEq] at hg ⊢
    rw [depth, hasParams, hasCanon, hg.1, hg.2.1, hg.2.2, args_app]
    simp [data, Bool.or_assoc]
  | _ => cases hf

/-- What is kept with a type is given by what is kept with its parts. -/
theorem data_eq {t : Ty} (ht : ∀ f a, t = .app f a → f.decl?.isSome = true) :
    t.data = t.former.data (t.parts.map data) := by
  cases t with
  | app f a => exact data_app f a (ht f a rfl)
  | _ => simp [data, former, parts, TypeFormer.data, TypeData.over, depth, hasParams, hasCanon]

end Ty

/-! ## Methods seen through handles -/

/-- What a method is put together by. -/
inductive MethodFormer where
  | declared (d : MethodDecl)
  /-- The parts are the method as declared and the owner. -/
  | onOwner
  /-- The parts are the method without arguments and the arguments. -/
  | instantiated
deriving DecidableEq, Repr

/-- How a method is put together; its parts are handles. -/
structure MethodShape where
  former : MethodFormer
  methods : List Handle
  types : List Handle
deriving DecidableEq, Repr

/-- What is kept with a method. -/
structure MethodData where
  depth : Nat := 0
  hasCanon : Bool := false
deriving DecidableEq, Repr

/-- What is kept with a method, given what is kept with its parts. -/
def MethodFormer.data (methods : List MethodData) (types : List TypeData) : MethodFormer → MethodData
  | .declared _ => {}
  | .onOwner =>
    { depth := (types.map (·.depth)).foldl max 0
      hasCanon := types.any (·.hasCanon) }
  | .instantiated =>
    { depth := max ((methods.map (·.depth)).foldl max 0) (TypeData.over types).depth
      hasCanon := methods.any (·.hasCanon) || types.any (·.hasCanon) }

/-- What a catalog says about a method. -/
structure MethodEntry where
  shape : MethodShape
  owner : Handle
  data : MethodData
  flags : MethodFlags
  name : String
  /-- The types of the parameters and then that of the result. -/
  signature : List Handle
  arity : Nat
deriving DecidableEq, Repr

namespace Method

/-- What a method is put together by. -/
def former (m : Method) : MethodFormer :=
  if m.isTypical then .declared m.decl else if m.args.isEmpty then .onOwner else .instantiated

/-- The types that a method is seen through, besides those of the method that it makes more
special. -/
def typeParts (m : Method) : List Ty :=
  if m.isTypical then [] else if m.args.isEmpty then [m.owner] else m.args

/-- What is kept with a method. -/
def data (m : Method) : MethodData where
  depth := m.depth
  hasCanon := m.hasCanon

/-- What a catalog says about a method whose parts have given handles. -/
def entry (m : Method) (methods types : List Handle) (owner : Handle) (signature : List Handle) :
    MethodEntry where
  shape := ⟨m.former, methods, types⟩
  owner
  data := m.data
  flags := m.flags
  name := m.name
  signature
  arity := m.signature.arity

/-- A typical method stands on its declaring type and has no arguments. -/
theorem owner_of_isTypical {m : Method} (hm : m.isTypical = true) :
    ∃ d, m.owner = .decl d ∧ m.args = [] := by
  rw [isTypical, Bool.and_eq_true, List.isEmpty_iff] at hm
  cases howner : m.owner with
  | decl d => exact ⟨d, rfl, hm.2⟩
  | _ =>
    rw [howner] at hm
    cases hm.1

/-- A typical method is the typical form of itself. -/
theorem eq_typical_of_isTypical {m : Method} (hm : m.isTypical = true)
    (howner : m.owner.decl? = some m.decl.owner) : m = m.typical := by
  obtain ⟨d, hd, hargs⟩ := owner_of_isTypical hm
  rw [hd] at howner
  cases m
  cases hd
  cases hargs
  rw [Option.some.inj howner]
  rfl

/-- What is put together from a declaration alone is a typical method. -/
theorem of_former_declared {m : Method} {d : MethodDecl} (h : m.former = .declared d) :
    m.isTypical = true ∧ m.decl = d := by
  unfold former at h
  split at h
  · next hm => exact ⟨hm, MethodFormer.declared.inj h⟩
  · split at h <;> cases h

/-- A method on an instantiated owner is put together from its typical form and this owner. -/
theorem of_former_onOwner {m : Method} (h : m.former = .onOwner) :
    m.args = [] ∧ m.precursors = [m.typical] ∧ m.typeParts = [m.owner] := by
  unfold former at h
  split at h
  · cases h
  · next hm =>
    split at h
    · next hargs => simp_all [precursors, typeParts]
    · cases h

/-- An instantiated method is put together from its definition and its arguments. -/
theorem of_former_instantiated {m : Method} (h : m.former = .instantiated) :
    m.args ≠ [] ∧ m.precursors = [m.definition] ∧ m.typeParts = m.args := by
  unfold former at h
  split at h
  · cases h
  · next hm =>
    split at h
    · cases h
    · next hargs => simp_all [precursors, typeParts]

/-- A method on its declaring type or an instantiation of it is given by its former and its parts. -/
theorem eq_of_former_of_parts {m n : Method} (hm : m.owner.decl? = some m.decl.owner)
    (hn : n.owner.decl? = some n.decl.owner) (hformer : m.former = n.former)
    (hmethods : m.precursors = n.precursors) (htypes : m.typeParts = n.typeParts) : m = n := by
  cases hnformer : n.former with
  | declared d =>
    obtain ⟨hmt, hmd⟩ := of_former_declared (hformer.trans hnformer)
    obtain ⟨hnt, hnd⟩ := of_former_declared hnformer
    rw [eq_typical_of_isTypical hmt hm, eq_typical_of_isTypical hnt hn, typical, typical, hmd, hnd]
  | onOwner =>
    obtain ⟨hmargs, hmp, hmo⟩ := of_former_onOwner (hformer.trans hnformer)
    obtain ⟨hnargs, hnp, hno⟩ := of_former_onOwner hnformer
    have htypical : m.typical = n.typical := by simpa [hmp, hnp] using hmethods
    have howner : m.owner = n.owner := by simpa [hmo, hno] using htypes
    calc m = ⟨m.typical.decl, m.owner, []⟩ := by rw [← hmargs]; rfl
      _ = ⟨n.typical.decl, n.owner, []⟩ := by rw [htypical, howner]
      _ = n := by rw [← hnargs]; rfl
  | instantiated =>
    obtain ⟨-, hmp, hma⟩ := of_former_instantiated (hformer.trans hnformer)
    obtain ⟨-, hnp, hna⟩ := of_former_instantiated hnformer
    have hdefinition : m.definition = n.definition := by simpa [hmp, hnp] using hmethods
    rw [hma, hna] at htypes
    calc m = { m.definition with args := m.args } := rfl
      _ = { n.definition with args := n.args } := by rw [hdefinition, htypes]
      _ = n := rfl

/-- Collecting the depths of arguments on the way gives the largest of them. -/
theorem foldl_max_depth (l : List Ty) (n k : Nat) :
    l.foldl (fun depth t => max depth (t.depth + 1)) (max n (k + 1)) =
      max n ((l.map Ty.depth).foldl max k + 1) := by
  induction l generalizing k with
  | nil => rfl
  | cons t l ih =>
    rw [List.foldl_cons, List.map_cons, List.foldl_cons, ← ih (max k t.depth)]
    congr 1
    omega

/-- What is kept with a method is given by what is kept with its parts. -/
theorem data_eq (m : Method) :
    m.data = m.former.data (m.precursors.map data) (m.typeParts.map Ty.data) := by
  cases hformer : m.former with
  | declared d =>
    obtain ⟨e, howner, hargs⟩ := owner_of_isTypical (of_former_declared hformer).1
    simp [data, depth, hasCanon, howner, hargs, MethodFormer.data, Ty.depth, Ty.hasCanon]
  | onOwner =>
    obtain ⟨hargs, -, htypes⟩ := of_former_onOwner hformer
    rw [htypes]
    simp [data, depth, hasCanon, hargs, MethodFormer.data, Ty.data]
  | instantiated =>
    obtain ⟨hargs, hmethods, htypes⟩ := of_former_instantiated hformer
    obtain ⟨a, rest, ha⟩ := List.exists_cons_of_ne_nil hargs
    have hdepth : m.depth = max m.owner.depth ((m.args.map Ty.depth).foldl max 0 + 1) := by
      rw [depth, ha, List.foldl_cons, foldl_max_depth, List.map_cons, List.foldl_cons, Nat.zero_max]
    rw [hmethods, htypes, data, hdepth]
    simp [hasCanon, depth, MethodFormer.data, TypeData.over, definition, data, Ty.data,
      Function.comp_def]

end Method

/-! ## Entries of the catalog -/

namespace Catalog

/-- The entry of a type. -/
def typeAt? (c : Catalog) (h : Handle) : Option TypeEntry := do
  let t ← c.types.deref? .type h
  let parts ← c.types.handles? .type t.parts
  some (t.entry parts)

/-- The entry of a method. -/
def methodAt? (c : Catalog) (h : Handle) : Option MethodEntry := do
  let m ← c.methods.deref? .method h
  let methods ← c.methods.handles? .method m.precursors
  let types ← c.types.handles? .type m.typeParts
  let owner ← c.types.handle? .type m.owner
  let signature ← c.types.handles? .type m.signature.types
  some (m.entry methods types owner signature)

/-- What is kept with the type that a handle stands for. -/
def typeData (c : Catalog) (h : Handle) : TypeData :=
  ((c.typeAt? h).map (·.data)).getD {}

/-- What is kept with the method that a handle stands for. -/
def methodData (c : Catalog) (h : Handle) : MethodData :=
  ((c.methodAt? h).map (·.data)).getD {}

/-- The types of a catalog are interned. -/
structure TypesInterned (c : Catalog) : Prop where
  /-- Every number is the number of an entry. -/
  entry : ∀ i < c.types.size, ∃ e, c.typeAt? (.ofNat .type i) = some e
  /-- Handles are the same if the types are. -/
  same : ∀ {t u : Ty} {g h : Handle}, c.types.handle? .type t = some g →
    c.types.handle? .type u = some h → (g = h ↔ t = u)
  /-- No two entries have one shape. -/
  shape : ∀ {g h : Handle} {e e' : TypeEntry}, c.typeAt? g = some e → c.typeAt? h = some e' →
    e.shape = e'.shape → g = h
  /-- Parts have smaller handles. -/
  parts : ∀ {h : Handle} {e : TypeEntry}, c.typeAt? h = some e →
    ∀ p ∈ e.shape.parts, p.kind = .type ∧ p.index < h.index
  /-- What is kept with a type follows from its shape. -/
  data : ∀ {h : Handle} {e : TypeEntry}, c.typeAt? h = some e →
    e.data = e.shape.former.data (e.shape.parts.map c.typeData)

/-- The methods of a catalog are interned. -/
structure MethodsInterned (c : Catalog) : Prop where
  /-- Every number is the number of an entry. -/
  entry : ∀ i < c.methods.size, ∃ e, c.methodAt? (.ofNat .method i) = some e
  /-- Handles are the same if the methods are. -/
  same : ∀ {m n : Method} {g h : Handle}, c.methods.handle? .method m = some g →
    c.methods.handle? .method n = some h → (g = h ↔ m = n)
  /-- No two entries have one shape. -/
  shape : ∀ {g h : Handle} {e e' : MethodEntry}, c.methodAt? g = some e →
    c.methodAt? h = some e' → e.shape = e'.shape → g = h
  /-- Parts that are methods have smaller handles. -/
  parts : ∀ {h : Handle} {e : MethodEntry}, c.methodAt? h = some e →
    ∀ p ∈ e.shape.methods, p.kind = .method ∧ p.index < h.index
  /-- The types of a method have entries. -/
  types : ∀ {h : Handle} {e : MethodEntry}, c.methodAt? h = some e →
    ∀ p ∈ e.owner :: (e.shape.types ++ e.signature), ∃ e', c.typeAt? p = some e'
  /-- What is kept with a method follows from its shape. -/
  data : ∀ {h : Handle} {e : MethodEntry}, c.methodAt? h = some e →
    e.data = e.shape.former.data (e.shape.methods.map c.methodData) (e.shape.types.map c.typeData)

/-- The entries of a catalog are entries of another one. -/
structure Kept (c c' : Catalog) : Prop where
  types : ∀ {h : Handle} {e : TypeEntry}, c.typeAt? h = some e → c'.typeAt? h = some e
  methods : ∀ {h : Handle} {e : MethodEntry}, c.methodAt? h = some e → c'.methodAt? h = some e

variable {V : Vocabulary} {c c' : Catalog} {h : Handle}

/-- The entry at a handle is that of a listed type whose parts have handles. -/
theorem typeAt?_eq_some_iff {e : TypeEntry} : c.typeAt? h = some e ↔
    ∃ t, c.types.deref? .type h = some t ∧
      ∃ parts, c.types.handles? .type t.parts = some parts ∧ t.entry parts = e := by
  simp only [typeAt?, Option.bind_eq_bind, Option.bind_eq_some_iff, Option.some.injEq]

/-- The entry at a handle is that of a listed method whose parts and types have handles. -/
theorem methodAt?_eq_some_iff {e : MethodEntry} : c.methodAt? h = some e ↔
    ∃ m, c.methods.deref? .method h = some m ∧
      ∃ methods, c.methods.handles? .method m.precursors = some methods ∧
      ∃ types, c.types.handles? .type m.typeParts = some types ∧
      ∃ owner, c.types.handle? .type m.owner = some owner ∧
      ∃ signature, c.types.handles? .type m.signature.types = some signature ∧
        m.entry methods types owner signature = e := by
  simp only [methodAt?, Option.bind_eq_bind, Option.bind_eq_some_iff, Option.some.injEq]

/-- The entries of a catalog are entries of every catalog that extends it. -/
theorem Extends.kept (hext : c.Extends c') : c.Kept c' where
  types he := by
    obtain ⟨t, ht, parts, hparts, rfl⟩ := typeAt?_eq_some_iff.1 he
    exact typeAt?_eq_some_iff.2 ⟨t, Roster.deref?_of_prefix hext.types ht, parts,
      Roster.handles?_of_prefix hext.types hparts, rfl⟩
  methods he := by
    obtain ⟨m, hm, methods, hmethods, types, htypes, owner, howner, signature, hsignature, rfl⟩ :=
      methodAt?_eq_some_iff.1 he
    exact methodAt?_eq_some_iff.2 ⟨m, Roster.deref?_of_prefix hext.methods hm,
      methods, Roster.handles?_of_prefix hext.methods hmethods,
      types, Roster.handles?_of_prefix hext.types htypes,
      owner, Roster.handle?_of_prefix hext.types howner,
      signature, Roster.handles?_of_prefix hext.types hsignature, rfl⟩

/-! ## Sound catalogs are interned -/

/-- In a sound catalog, every handle of a type has an entry. -/
theorem Sound.exists_typeAt (hc : c.Sound V) {t : Ty} (ht : c.types.deref? .type h = some t) :
    ∃ parts, c.typeAt? h = some (t.entry parts) := by
  obtain ⟨parts, hparts⟩ :=
    Roster.exists_handles? .type (hc.parts.mem (Roster.mem_of_deref? ht))
  exact ⟨parts, typeAt?_eq_some_iff.2 ⟨t, ht, parts, hparts, rfl⟩⟩

/-- What is kept with a handle is what the type itself says. -/
theorem Sound.typeData_eq (hc : c.Sound V) (hsize : c.types.size ≤ UInt32.size) {t : Ty}
    (ht : c.types.handle? .type t = some h) : c.typeData h = t.data := by
  obtain ⟨parts, he⟩ := hc.exists_typeAt ((Roster.handle?_iff_deref? hsize).1 ht)
  rw [typeData, he]
  rfl

/-- The types of a sound catalog are interned, as long as there are numbers for them. -/
theorem Sound.typesInterned (hV : V.Listable) (hc : c.Sound V) (hsize : c.types.size ≤ UInt32.size) :
    c.TypesInterned where
  entry i hi := by
    obtain ⟨t, ht⟩ := Roster.exists_deref? .type hsize hi
    obtain ⟨parts, he⟩ := hc.exists_typeAt ht
    exact ⟨t.entry parts, he⟩
  same := Roster.handle?_eq_iff hsize
  shape {g h e e'} he he' hshape := by
    obtain ⟨t, ht, parts, hparts, rfl⟩ := typeAt?_eq_some_iff.1 he
    obtain ⟨u, hu, parts', hparts', rfl⟩ := typeAt?_eq_some_iff.1 he'
    obtain ⟨hformer, rfl⟩ := TypeShape.mk.inj hshape
    have heq : t = u := Ty.eq_of_former_of_parts hformer (Roster.eq_of_handles? hsize hparts hparts')
    rw [← Roster.handle?_iff_deref? hsize] at ht hu
    exact (Roster.handle?_eq_iff hsize ht hu).2 heq
  parts {h e} he := by
    obtain ⟨t, ht, parts, hparts, rfl⟩ := typeAt?_eq_some_iff.1 he
    exact hc.parts.handles_lt hsize ht hparts
  data {h e} he := by
    obtain ⟨t, ht, parts, hparts, rfl⟩ := typeAt?_eq_some_iff.1 he
    show t.data = t.former.data (parts.map c.typeData)
    rw [Roster.map_eq_of_handles? (fun u g hu => hc.typeData_eq hsize hu) hparts]
    apply Ty.data_eq
    rintro f a rfl
    exact hV.generic (hc.type _ (Roster.mem_of_deref? ht))

/-- The types that a listed method is seen through are listed. -/
theorem Sound.mem_typeParts (hc : c.Sound V) {m : Method} (hm : m ∈ c.methods.toList) :
    ∀ t ∈ m.typeParts, t ∈ c.types.toList := by
  unfold Method.typeParts
  split
  · exact List.forall_mem_nil _
  · split
    · exact List.forall_mem_singleton.2 (hc.owner m hm)
    · exact hc.args m hm

/-- In a sound catalog, every handle of a method has an entry. -/
theorem Sound.exists_methodAt (hc : c.Sound V) {m : Method}
    (hm : c.methods.deref? .method h = some m) :
    ∃ methods types owner signature,
      c.methodAt? h = some (m.entry methods types owner signature) := by
  have hmem := Roster.mem_of_deref? hm
  obtain ⟨methods, hmethods⟩ := Roster.exists_handles? .method (hc.precursors.mem hmem)
  obtain ⟨types, htypes⟩ := Roster.exists_handles? .type (hc.mem_typeParts hmem)
  have howner := Roster.handle?_of_mem .type (hc.owner m hmem)
  obtain ⟨signature, hsignature⟩ := Roster.exists_handles? .type (hc.signature m hmem)
  exact ⟨methods, types, _, signature, methodAt?_eq_some_iff.2
    ⟨m, hm, methods, hmethods, types, htypes, _, howner, signature, hsignature, rfl⟩⟩

/-- What is kept with a handle is what the method itself says. -/
theorem Sound.methodData_eq (hc : c.Sound V) (hsize : c.methods.size ≤ UInt32.size) {m : Method}
    (hm : c.methods.handle? .method m = some h) : c.methodData h = m.data := by
  obtain ⟨methods, types, owner, signature, he⟩ :=
    hc.exists_methodAt ((Roster.handle?_iff_deref? hsize).1 hm)
  rw [methodData, he]
  rfl

/-- The methods of a sound catalog are interned, as long as there are numbers for them. -/
theorem Sound.methodsInterned (hV : V.Listable) (hc : c.Sound V) (htypes : c.types.size ≤ UInt32.size)
    (hmethods : c.methods.size ≤ UInt32.size) : c.MethodsInterned where
  entry i hi := by
    obtain ⟨m, hm⟩ := Roster.exists_deref? .method hmethods hi
    obtain ⟨methods, types, owner, signature, he⟩ := hc.exists_methodAt hm
    exact ⟨_, he⟩
  same := Roster.handle?_eq_iff hmethods
  shape {g h e e'} he he' hshape := by
    obtain ⟨m, hm, ms, hms, ts, hts, _, _, _, _, rfl⟩ := methodAt?_eq_some_iff.1 he
    obtain ⟨n, hn, ms', hms', ts', hts', _, _, _, _, rfl⟩ := methodAt?_eq_some_iff.1 he'
    obtain ⟨hformer, rfl, rfl⟩ := MethodShape.mk.inj hshape
    -- different methods with the same parts are formed in different ways
    have heq : m = n := by
      apply Method.eq_of_former_of_parts
      · exact hV.declaring (hc.method m (Roster.mem_of_deref? hm))
      · exact hV.declaring (hc.method n (Roster.mem_of_deref? hn))
      · exact hformer
      · exact Roster.eq_of_handles? hmethods hms hms'
      · exact Roster.eq_of_handles? htypes hts hts'
    rw [← Roster.handle?_iff_deref? hmethods] at hm hn
    exact (Roster.handle?_eq_iff hmethods hm hn).2 heq
  parts {h e} he := by
    obtain ⟨m, hm, ms, hms, -, -, -, -, -, -, rfl⟩ := methodAt?_eq_some_iff.1 he
    exact hc.precursors.handles_lt hmethods hm hms
  types {h e} he := by
    obtain ⟨m, -, -, -, ts, hts, owner, howner, signature, hsignature, rfl⟩ :=
      methodAt?_eq_some_iff.1 he
    have hentry : ∀ {t : Ty} {p : Handle}, c.types.handle? .type t = some p →
        ∃ e', c.typeAt? p = some e' := by
      intro t p ht
      obtain ⟨parts, hp⟩ := hc.exists_typeAt ((Roster.handle?_iff_deref? htypes).1 ht)
      exact ⟨_, hp⟩
    rw [List.forall_mem_cons, List.forall_mem_append]
    refine ⟨hentry howner, fun p hp => ?_, fun p hp => ?_⟩
    · obtain ⟨t, -, ht⟩ := Roster.exists_of_mem_handles? hts hp
      exact hentry ht
    · obtain ⟨t, -, ht⟩ := Roster.exists_of_mem_handles? hsignature hp
      exact hentry ht
  data {h e} he := by
    obtain ⟨m, hm, ms, hms, ts, hts, -, -, -, -, rfl⟩ := methodAt?_eq_some_iff.1 he
    show m.data = m.former.data (ms.map c.methodData) (ts.map c.typeData)
    rw [Roster.map_eq_of_handles? (fun n g hn => hc.methodData_eq hmethods hn) hms,
      Roster.map_eq_of_handles? (fun t g ht => hc.typeData_eq htypes ht) hts]
    exact m.data_eq

end Catalog

end AheadOfTime
