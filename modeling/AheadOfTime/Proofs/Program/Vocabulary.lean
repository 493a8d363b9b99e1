import AheadOfTime.Proofs.Program.Dispatch
import AheadOfTime.Proofs.Roster
import AheadOfTime.Proofs.Ty.Alphabet

/-!
# What answers speak of

Suppose that some types and methods may be spoken of, that substitution does not lead out of them,
and that what a program declares about types does not either.  Then whatever is asked about such
types and methods is answered by types and methods that may be spoken of too.  For that it is enough
to look at the direct answers: what a type extends, implements, declares and overrides.

What may be spoken of is a `Vocabulary`: for instance what a program declares, or what does not
mention the placeholder, or what is put together from finitely many parts.
-/

set_option autoImplicit false

namespace AheadOfTime

/-! ## Answers with a property -/

/-- Every answer has a given property. -/
def Yields {α : Type} (p : α → Prop) (q : Attempt α) : Prop :=
  ∀ a, outcome q = .ok a → p a

namespace Yields

variable {α β : Type} {p : α → Prop} {r : β → Prop}

/-- A value with the property is an answer with the property. -/
theorem pure {a : α} (h : p a) : Yields p (Pure.pure a : Attempt α) := by
  intro b hb
  cases hb
  exact h

/-- The answer of a question that cannot fail has the property if its value does. -/
theorem lift {q : Tracked α} (h : p q.value) : Yields p (liftM q : Attempt α) := by
  intro b hb
  cases hb
  exact h

/-- A refusal gives no answer, so there is nothing to show. -/
theorem refuse {f : Fault} : Yields p (AheadOfTime.refuse f : Attempt α) := by
  intro b hb
  cases hb

/-- An error gives no answer, so there is nothing to show. -/
theorem throw {e : Diagnostic} : Yields p (MonadExcept.throw e : Attempt α) := by
  intro b hb
  cases hb

/-- What comes last has the property if it does for every answer that may come first. -/
theorem bind {q : Attempt α} {f : α → Attempt β} (hq : Yields p q)
    (hf : ∀ a, p a → Yields r (f a)) : Yields r (q >>= f) := by
  intro b hb
  rw [outcome_bind] at hb
  obtain ⟨a, ha, hb⟩ := bind_eq_ok.1 hb
  exact hf a (hq a ha) b hb

/-- Answers with two properties have both of them. -/
theorem and {p' : α → Prop} {q : Attempt α} (hq : Yields p q) (hq' : Yields p' q) :
    Yields (fun a => p a ∧ p' a) q :=
  fun a ha => ⟨hq a ha, hq' a ha⟩

/-- Answers can be taken together with the fact that they were given. -/
theorem eq_ok {q : Attempt α} (hq : Yields p q) : Yields (fun a => p a ∧ outcome q = .ok a) q :=
  fun a ha => ⟨hq a ha, ha⟩

/-- What is found out first may be anything. -/
theorem after {q : Attempt α} {f : α → Attempt β} (hf : ∀ a, Yields r (f a)) :
    Yields r (q >>= f) :=
  bind (p := fun _ => True) (fun _ _ => trivial) fun a _ => hf a

/-- A function of the answers takes one property to another. -/
theorem map {q : Attempt α} {f : α → β} (hq : Yields p q) (hf : ∀ a, p a → r (f a)) :
    Yields r (f <$> q) := by
  intro b hb
  rw [outcome_map] at hb
  cases ha : outcome q with
  | error e =>
    rw [ha] at hb
    cases hb
  | ok a =>
    rw [ha] at hb
    cases hb
    exact hf a (hq a ha)

/-- A case distinction yields what both cases yield. -/
theorem ite {c : Prop} [Decidable c] {q q' : Attempt α} (hq : Yields p q) (hq' : Yields p q') :
    Yields p (if c then q else q') := by
  split
  · exact hq
  · exact hq'

/-- Along a list, every single answer has the property. -/
theorem mapM {f : α → Attempt β} {l : List α} (hf : ∀ a ∈ l, Yields r (f a)) :
    Yields (fun bs => ∀ b ∈ bs, r b) (l.mapM f) := by
  intro bs hbs b hb
  rw [outcome_mapM] at hbs
  obtain ⟨a, ha, hfa⟩ := (mapM_eq_ok hbs).2 b hb
  exact hf a ha b hfa

/-- If the answers along a list are lists of items with the property, so is their flattening. -/
theorem mapM_flatten {f : α → Attempt (List β)} {l : List α}
    (hf : ∀ a ∈ l, Yields (fun bs => ∀ b ∈ bs, r b) (f a)) :
    Yields (fun bs => ∀ b ∈ bs, r b) (l.mapM f >>= fun bss => Pure.pure bss.flatten) := by
  refine bind (mapM hf) fun bss hbss => pure fun b hb => ?_
  obtain ⟨bs, hbs, hb⟩ := List.mem_flatten.1 hb
  exact hbss bs hbs b hb

/-- What a search finds has the property if whatever it accepts does. -/
theorem findM? {q : α → Attempt Bool} {l : List α} (hl : ∀ a ∈ l, outcome (q a) = .ok true → p a) :
    Yields (fun found => ∀ a ∈ found, p a) (l.findM? q) := by
  intro found hfound a ha
  cases ha
  rw [outcome_findM?] at hfound
  obtain ⟨hmem, htrue⟩ := findM?_eq_some hfound
  exact hl a hmem htrue

/-- What a filter keeps has the property if all items do. -/
theorem filterM {q : α → Attempt Bool} {l : List α} (hl : ∀ a ∈ l, p a) :
    Yields (fun bs => ∀ b ∈ bs, p b) (l.filterM q) := by
  intro bs hbs b hb
  rw [outcome_filterM] at hbs
  exact hl b ((filterM_eq_ok hbs b).1 hb).1

/-- What a search up the bases finds has the property if it does on every base. -/
theorem findUp {P : Program} {t : Ty} {visit : Ty → Attempt (Option β)}
    (hv : ∀ u ∈ P.chain P.walkLimit t, Yields (fun found => ∀ b ∈ found, r b) (visit u)) :
    Yields (fun found => ∀ b ∈ found, r b) (P.findUp t visit) := by
  intro found hfound b hb
  cases hb
  rw [P.outcome_findUp] at hfound
  obtain ⟨u, hu, hvisit⟩ := exists_of_firstAnswer_eq_some hfound
  exact hv u hu _ hvisit b rfl

end Yields

/-! ## Vocabularies -/

/-- What an operand refers to, if it refers to anything, has a property. -/
def Operand.All {α : Type} (p : α → Prop) : Operand α → Prop
  | .known a => p a
  | .unknown _ => True

/-- The types and methods that may be spoken of. -/
structure Vocabulary where
  type : Ty → Prop
  method : Method → Prop

namespace Vocabulary

/-- The arguments may be spoken of. -/
def Binds (V : Vocabulary) (σ : Bindings) : Prop :=
  ∀ k, ∀ a ∈ σ.args k, V.type a

/-- A method that may be spoken of may be given the arguments of another one. -/
theorem withArgs {V : Vocabulary} {m m' : Method} (hm : V.method m)
    (hargs : V.method { m with args := m'.args }) : V.method (m.withArgs m'.args) := by
  unfold Method.withArgs
  split
  · exact hm
  · exact hargs

/-- Whatever a program says directly about what may be spoken of may be spoken of too. -/
structure Answers (V : Vocabulary) (P : Program) : Prop where
  owner : ∀ {m : Method}, V.method m → V.type m.owner
  definition : ∀ {m : Method}, V.method m → V.method m.definition
  replaceArgs : ∀ {m m' : Method}, V.method m → V.method m' → V.method { m with args := m'.args }
  methods : ∀ {t : Ty}, V.type t → ∀ m ∈ P.methods t, V.method m
  baseType : ∀ {t b : Ty}, V.type t → (P.baseType t).value = some b → V.type b
  interfacesOf : ∀ {t : Ty}, V.type t → ∀ i ∈ (P.interfacesOf t).value, V.type i
  overridesOf : ∀ {t : Ty}, V.type t →
    Yields (fun overrides => ∀ o ∈ overrides, V.method o.decl ∧ V.method o.body) (P.overridesOf t)

namespace Answers

variable {V : Vocabulary} {P : Program} (hV : V.Answers P) {t : Ty} (ht : V.type t) {m : Method}
include hV

/-! ### The hierarchy -/

section

include ht

/-- All bases of a type may be spoken of. -/
theorem chain {n : Nat} {u : Ty} (hu : u ∈ P.chain n t) : V.type u := by
  induction n generalizing t with
  | zero => cases hu
  | succ n ih =>
    rw [Program.chain] at hu
    rcases List.mem_cons.1 hu with rfl | hu
    · exact ht
    · cases hbase : (P.baseType t).value with
      | none =>
        rw [hbase] at hu
        cases hu
      | some b =>
        rw [hbase] at hu
        exact ih (hV.baseType ht hbase) hu

omit ht in
/-- Closing a stack of interfaces reaches nothing that may not be spoken of. -/
theorem closeInterfaces {n : Nat} {stack : List Ty} {seen : Roster Ty}
    (hstack : ∀ i ∈ stack, V.type i) (hseen : ∀ i ∈ seen.toList, V.type i) :
    ∀ i ∈ (P.closeInterfaces n stack seen).value.toList, V.type i := by
  induction n generalizing stack seen with
  | zero => exact hseen
  | succ n ih =>
    cases stack with
    | nil => exact hseen
    | cons j rest =>
      have hj := hstack j List.mem_cons_self
      have hrest : ∀ i ∈ rest, V.type i := fun i hi => hstack i (List.mem_cons_of_mem _ hi)
      rw [Program.closeInterfaces]
      split
      · exact ih hrest hseen
      · rw [Recorded.value_bind]
        refine ih (fun i hi => ?_) fun i hi => ?_
        · rcases List.mem_append.1 hi with hi | hi
          · exact hV.interfacesOf hj i hi
          · exact hrest i hi
        · rcases (seen.mem_toList_insert j i).1 hi with hi | rfl
          · exact hseen i hi
          · exact hj

/-- The interfaces that a type reaches may be spoken of. -/
theorem interfaceClosure : ∀ i ∈ (P.interfaceClosure t).value, V.type i := by
  intro i hi
  simp only [Program.interfaceClosure, Recorded.value_bind, Recorded.value_pure] at hi
  refine hV.closeInterfaces (hV.interfacesOf ht) (fun i hi => ?_) i hi
  simp at hi

/-- All interfaces of a type and of its bases may be spoken of. -/
theorem allInterfaces : ∀ i ∈ (P.allInterfaces t).value, V.type i := by
  intro i hi
  simp only [Program.allInterfaces, Recorded.value_bind, Recorded.value_pure,
    Program.value_collectUp] at hi
  rw [Roster.mem_toList_foldl_insertAll] at hi
  rcases hi with hi | ⟨closure, hclosure, hi⟩
  · simp at hi
  · obtain ⟨u, hu, rfl⟩ := List.mem_map.1 hclosure
    exact hV.interfaceClosure (hV.chain ht hu) i hi

/-- The class constructor of a type may be spoken of. -/
theorem classConstructor? {m : Method} (hm : (P.classConstructor? t).value = some m) :
    V.method m := by
  simp only [Program.classConstructor?, Recorded.value_bind, Program.value_methodsOf,
    Recorded.value_pure] at hm
  exact hV.methods ht m (List.mem_of_find?_eq_some hm)

end

/-! ### Slots and dispatch -/

/-- What a method overrides may be spoken of. -/
theorem overridden? (hm : V.method m) :
    Yields (fun next => ∀ m' ∈ next, V.method m') (P.overridden? m) := by
  refine .bind (hV.overridesOf (hV.owner hm)) fun overrides hoverrides => ?_
  split
  · next o ho =>
    refine .pure fun m' hm' => ?_
    cases hm'
    exact hV.definition (hoverrides o (List.mem_of_find?_eq_some ho)).1
  · refine .bind (p := fun base => ∀ b ∈ base, V.type b)
      (.lift fun b hb => hV.baseType (hV.owner hm) hb) fun base hbase => ?_
    cases base with
    | none => exact .pure fun m' hm' => by cases hm'
    | some base =>
      refine .lift fun m' hm' => ?_
      rw [Program.value_findUp] at hm'
      obtain ⟨u, hu, hfound⟩ := List.exists_of_findSome?_eq_some hm'
      simp only [Recorded.value_bind, Program.value_methodsOf, Recorded.value_pure] at hfound
      exact hV.methods (hV.chain (hbase base rfl) hu) m' (List.mem_of_find?_eq_some hfound)

/-- Every step of the search for a slot leads to methods that may be spoken of. -/
theorem slotFrom (n : Nat) (hm : V.method m) : Yields V.method (P.slotFrom n m) := by
  induction n generalizing m with
  | zero => exact .pure hm
  | succ n ih =>
    rw [Program.slotFrom_succ]
    refine .ite (.pure hm) (.bind (hV.overridden? hm) fun next hnext => ?_)
    cases next with
    | some next => exact ih (hnext next rfl)
    | none => exact .pure hm

/-- The slot of a method may be spoken of. -/
theorem slotOf (hm : V.method m) : Yields V.method (P.slotOf m) := by
  refine .bind (hV.slotFrom _ (hV.definition hm)) fun slot hslot => .lift ?_
  rw [value_needMethod]
  exact withArgs hslot (hV.replaceArgs hslot hm)

/-- The slots of a type may be spoken of. -/
theorem slotsOf (ht : V.type t) : Yields (fun slots => ∀ m ∈ slots, V.method m) (P.slotsOf t) := by
  refine .bind (p := fun chain => ∀ u ∈ chain, V.type u) (.lift ?_) fun chain hchain => ?_
  · rw [Program.value_baseChain]
    exact fun u hu => hV.chain ht hu
  · refine .mapM_flatten fun u hu => ?_
    refine .bind (p := fun methods => ∀ m ∈ methods, V.method m) (.lift ?_)
      fun methods hmethods => .filterM hmethods
    rw [Program.value_methodsOf]
    exact hV.methods (hchain u (List.mem_reverse.1 hu))

/-- What fills a slot on a type may be spoken of. -/
theorem slotFiller? {slot : Method} (ht : V.type t) :
    Yields (fun found => ∀ m ∈ found, V.method m) (P.slotFiller? slot t) := by
  refine .bind (hV.overridesOf ht) fun overrides hoverrides => ?_
  refine .bind (.findM? fun o ho _ => hoverrides o ho) fun explicit hexplicit => ?_
  cases explicit with
  | some o =>
    refine .pure fun m hm => ?_
    cases hm
    exact hV.definition (hexplicit o rfl).2
  | none =>
    refine .bind (p := fun methods => ∀ m ∈ methods, V.method m) (.lift ?_)
      fun methods hmethods => .findM? fun m hm _ => hmethods m hm
    rw [Program.value_methodsOf]
    exact hV.methods ht

/-- The implementation of an interface method on a type may be spoken of. -/
theorem implementation? (ht : V.type t) :
    Yields (fun found => ∀ m' ∈ found, V.method m') (P.implementation? m t) := by
  refine .bind (hV.overridesOf ht) fun overrides hoverrides => ?_
  refine .bind (p := fun explicit => ∀ o ∈ explicit, V.method o.body) (.lift ?_)
    fun explicit hexplicit => ?_
  · intro o ho
    rw [Recorded.value_findM?] at ho
    exact (hoverrides o (List.mem_of_find?_eq_some ho)).2
  · cases explicit with
    | some o =>
      refine .pure fun m' hm' => ?_
      cases hm'
      exact hexplicit o rfl
    | none =>
      refine .after fun closure => .after fun listed => ?_
      cases listed with
      | none => exact .pure fun m' hm' => by cases hm'
      | some listed =>
        refine .after fun expected => ?_
        refine .bind (p := fun methods => ∀ m ∈ methods, V.method m) (.lift ?_)
          fun methods hmethods => .pure fun m' hm' => ?_
        · rw [Program.value_methodsOf]
          exact hV.methods ht
        · exact hmethods m' (List.mem_of_find?_eq_some hm')

/-- On a type that may be spoken of, a method leads to one that may be spoken of, or to itself: all
that has to be known of it is that its arguments may be given to other methods. -/
theorem classTarget_or_eq (hargs : ∀ {m' : Method}, V.method m' → V.method { m' with args := m.args })
    (ht : V.type t) :
    Yields (fun target => V.method target ∨ target = m) (P.classTarget m t) := by
  refine .ite (.pure (.inr rfl)) (.after fun slot => ?_)
  refine .bind (.findUp fun u hu => hV.slotFiller? (hV.chain ht hu)) fun found hfound => ?_
  cases found with
  | some found =>
    refine .lift (.inl ?_)
    rw [value_needMethod]
    exact withArgs (hfound found rfl) (hargs (hfound found rfl))
  | none => exact .pure (.inr rfl)

/-- What a call of a class method leads to may be spoken of. -/
theorem classTarget (hm : V.method m) (ht : V.type t) : Yields V.method (P.classTarget m t) := by
  intro target htarget
  rcases hV.classTarget_or_eq (fun hm' => hV.replaceArgs hm' hm) ht target htarget with h | rfl
  · exact h
  · exact hm

/-- What a call of an interface method leads to may be spoken of or is the method itself, which only
has to have arguments that fit. -/
theorem interfaceTarget?_or_eq
    (hargs : ∀ {m' : Method}, V.method m' → V.method { m' with args := m.args }) (ht : V.type t) :
    Yields (fun target => ∀ m' ∈ target, V.method m' ∨ m' = m) (P.interfaceTarget? m t) := by
  refine .bind (.findUp fun u hu => hV.implementation? (hV.chain ht hu)) fun found hfound => ?_
  cases found with
  | some found =>
    refine .bind (p := V.method) (.lift ?_) fun body hbody => ?_
    · rw [value_needMethod]
      exact withArgs (hfound found rfl) (hargs (hfound found rfl))
    · refine .map (hV.classTarget hbody ht) fun target htarget m' hm' => ?_
      cases hm'
      exact .inl htarget
  | none =>
    refine .pure fun m' hm' => ?_
    split at hm'
    · cases hm'
    · cases hm'
      exact .inr rfl

/-- What a call of an interface method leads to may be spoken of. -/
theorem interfaceTarget? (hm : V.method m) (ht : V.type t) :
    Yields (fun target => ∀ m' ∈ target, V.method m') (P.interfaceTarget? m t) := by
  intro target htarget m' hm'
  have hor := hV.interfaceTarget?_or_eq (fun h => hV.replaceArgs h hm) ht target htarget m' hm'
  rcases hor with h | rfl
  · exact h
  · exact hm

/-- What a call leads to may be spoken of or is the method itself, which only has to have arguments
that fit. -/
theorem resolve_or_eq (hargs : ∀ {m' : Method}, V.method m' → V.method { m' with args := m.args })
    (ht : V.type t) : Yields (fun target => V.method target ∨ target = m) (P.resolve m t) := by
  refine .ite (.bind (hV.interfaceTarget?_or_eq hargs ht) fun target htarget => .pure ?_)
    (hV.classTarget_or_eq hargs ht)
  cases target with
  | some target => exact htarget target rfl
  | none => exact .inr rfl

/-- What a call leads to may be spoken of. -/
theorem resolve (hm : V.method m) (ht : V.type t) : Yields V.method (P.resolve m t) := by
  intro target htarget
  rcases hV.resolve_or_eq (fun hm' => hV.replaceArgs hm' hm) ht target htarget with h | rfl
  · exact h
  · exact hm

end Answers

/-- Neither substitution nor what a program declares leads out of a vocabulary. -/
structure Covers (V : Vocabulary) (P : Program) : Prop where
  typeArgs : ∀ {t : Ty}, V.type t → ∀ a ∈ t.args, V.type a
  subst : ∀ {t : Ty} {σ : Bindings}, V.type t → V.Binds σ → V.type (t.subst σ)
  owner : ∀ {m : Method}, V.method m → V.type m.owner
  methodArgs : ∀ {m : Method}, V.method m → ∀ a ∈ m.args, V.type a
  definition : ∀ {m : Method}, V.method m → V.method m.definition
  replaceArgs : ∀ {m m' : Method}, V.method m → V.method m' → V.method { m with args := m'.args }
  methodSubst : ∀ {m : Method} {σ : Bindings}, V.method m → V.Binds σ →
    V.method (m.subst σ)
  array : V.type (.ofWellKnown .array)
  object : V.type .object
  methods : ∀ {t : Ty}, V.type t → ∀ m ∈ P.methods t, V.method m
  base : ∀ r ∈ P.types.toList, ∀ b ∈ r.base.join, V.type b
  interfaces : ∀ r ∈ P.types.toList, ∀ i ∈ r.interfaces.getD [], V.type i
  overrides : ∀ r ∈ P.types.toList, ∀ o ∈ r.overrides.declared, V.method o.decl ∧ V.method o.body

namespace Covers

variable {V : Vocabulary} {P : Program} (hV : V.Covers P) {t : Ty} (ht : V.type t) {m : Method}
include hV

section

omit ht

/-- The arguments of a type may be bound. -/
theorem typeBindings (ht : V.type t) : V.Binds { ofType := t.args } := by
  intro k
  cases k with
  | type => exact hV.typeArgs ht
  | method =>
    intro a ha
    cases ha

/-- The arguments of a method and of its owner may be bound. -/
theorem methodBindings (hm : V.method m) : V.Binds m.bindings := by
  intro k
  cases k with
  | type => exact hV.typeArgs (hV.owner hm)
  | method => exact hV.methodArgs hm

end

/-! ### What is declared about types -/

/-- The base that a type was declared with may be spoken of. -/
theorem recordBase {d : TypeDecl} {b : Ty} (hb : (P.record d).base.join = some b) : V.type b := by
  rcases Program.record_mem_or_eq (P := P) d with hr | hr
  · exact hV.base _ hr b hb
  · rw [hr] at hb
    cases hb

/-- The interfaces that a type was declared with may be spoken of. -/
theorem recordInterface {d : TypeDecl} {i : Ty} (hi : i ∈ (P.record d).interfaces.getD []) :
    V.type i := by
  rcases Program.record_mem_or_eq (P := P) d with hr | hr
  · exact hV.interfaces _ hr i hi
  · rw [hr] at hi
    cases hi

/-- The methods of the overrides that a type was declared with may be spoken of. -/
theorem recordOverride {d : TypeDecl} {o : Override} (ho : o ∈ (P.record d).overrides.declared) :
    V.method o.decl ∧ V.method o.body := by
  rcases Program.record_mem_or_eq (P := P) d with hr | hr
  · exact hV.overrides _ hr o ho
  · rw [hr] at ho
    cases ho

/-! ### What types extend and override -/

include ht

/-- The base of a type may be spoken of. -/
theorem baseType {b : Ty} (hb : (P.baseType t).value = some b) : V.type b := by
  cases hd : t.decl? with
  | none =>
    unfold Program.baseType at hb
    rw [hd] at hb
    cases t with
    | array e r =>
      cases hb
      exact hV.array
    | canon =>
      cases hb
      exact hV.object
    | _ => cases hb
  | some d =>
    rw [P.value_baseType_of_decl? hd] at hb
    obtain ⟨base, hbase, rfl⟩ := Option.map_eq_some_iff.1 hb
    exact hV.subst (hV.recordBase hbase) (hV.typeBindings ht)

/-- The interfaces that a type lists may be spoken of. -/
theorem interfacesOf : ∀ i ∈ (P.interfacesOf t).value, V.type i := by
  intro i hi
  unfold Program.interfacesOf at hi
  split at hi
  · next d hd =>
    rw [Recorded.value_mapM] at hi
    obtain ⟨j, hj, rfl⟩ := List.mem_map.1 hi
    rw [Ty.value_instantiate]
    exact hV.subst (hV.recordInterface hj) (hV.typeBindings ht)
  · cases hi

/-- The overrides of a type are between methods that may be spoken of. -/
theorem overridesOf : Yields (fun overrides => ∀ o ∈ overrides, V.method o.decl ∧ V.method o.body)
    (P.overridesOf t) := by
  intro overrides hoverrides o ho
  obtain ⟨d, -, o₀, ho₀, rfl⟩ := P.exists_declared_of_overridesOf hoverrides ho
  obtain ⟨hdecl, hbody⟩ := hV.recordOverride ho₀
  exact ⟨hV.methodSubst hdecl (hV.typeBindings ht), hV.methodSubst hbody (hV.typeBindings ht)⟩

omit ht in
/-- If neither substitution nor declarations lead out of a vocabulary, no direct answer does. -/
theorem answers : V.Answers P where
  owner := hV.owner
  definition := hV.definition
  replaceArgs := hV.replaceArgs
  methods := hV.methods
  baseType ht hb := hV.baseType ht hb
  interfacesOf := hV.interfacesOf
  overridesOf := hV.overridesOf

end Covers

end Vocabulary

/-! ## Vocabularies over an alphabet -/

namespace Alphabet

/-- The types over an alphabet, and the methods with a given property that are seen through them. -/
def vocabulary (A : Alphabet) (E : Method → Prop) : Vocabulary where
  type t := t.Over A
  method m := E m ∧ m.owner.Over A ∧ ∀ a ∈ m.args, a.Over A

/-- The alphabet has what a program declares about types.  The property of methods does not depend on
what they are seen through. -/
structure Describes (A : Alphabet) (E : Method → Prop) (P : Program) : Prop where
  array : A.decl WellKnown.array.decl
  object : A.decl WellKnown.object.decl
  definition : ∀ {m : Method}, E m → E m.definition
  replaceArgs : ∀ {m m' : Method}, E m → E m' → E { m with args := m'.args }
  subst : ∀ {m : Method} (σ : Bindings), E m → E (m.subst σ)
  methods : ∀ {t : Ty}, ∀ m ∈ P.methods t, E m
  base : ∀ r ∈ P.types.toList, ∀ b ∈ r.base.join, b.Over A
  interfaces : ∀ r ∈ P.types.toList, ∀ i ∈ r.interfaces.getD [], i.Over A
  overrides : ∀ r ∈ P.types.toList, ∀ o ∈ r.overrides.declared,
    (A.vocabulary E).method o.decl ∧ (A.vocabulary E).method o.body

/-- If an alphabet has what a program declares, nothing leads out of its vocabulary. -/
theorem Describes.covers {A : Alphabet} {E : Method → Prop} {P : Program} (h : A.Describes E P) :
    (A.vocabulary E).Covers P where
  typeArgs := Ty.Over.args
  subst ht hσ := ht.subst hσ
  owner hm := hm.2.1
  methodArgs hm := hm.2.2
  definition hm := ⟨h.definition hm.1, hm.2.1, List.forall_mem_nil _⟩
  replaceArgs hm hm' := ⟨h.replaceArgs hm.1 hm'.1, hm.2.1, hm'.2.2⟩
  methodSubst {m σ} hm hσ := by
    refine ⟨h.subst σ hm.1, hm.2.1.substOwner hσ, fun a ha => ?_⟩
    obtain ⟨b, hb, rfl⟩ := List.mem_map.1 ha
    exact (hm.2.2 b hb).subst hσ
  array := h.array
  object := h.object
  methods ht m hm := by
    obtain ⟨-, rfl, hargs⟩ := P.mem_methods.1 hm
    refine ⟨h.methods m hm, ht, ?_⟩
    rw [hargs]
    exact List.forall_mem_nil _
  base := h.base
  interfaces := h.interfaces
  overrides := h.overrides

/-- If the placeholder is in the alphabet, canonical forms of methods stay over it. -/
theorem canonical {A : Alphabet} (hcanon : A.canon) {E : Method → Prop}
    (hE : ∀ m, E m → E m.canonical) {m : Method} (hm : (A.vocabulary E).method m) :
    (A.vocabulary E).method m.canonical := by
  refine ⟨hE m hm.1, hm.2.1.canonical hcanon, fun a ha => ?_⟩
  obtain ⟨b, hb, rfl⟩ := List.mem_map.1 ha
  exact ((hm.2.2 b hb).canonical hcanon).canonicalArg hcanon

end Alphabet

end AheadOfTime
