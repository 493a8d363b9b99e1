import AheadOfTime.Proofs.Ty.Canon
import AheadOfTime.Program.Casting

/-!
# The hierarchy as lists

What is asked along the base types of a type is asked along a list, `Program.chain`.  A search that
goes up the hierarchy gives the first answer along that list, and what is collected on the way up is
collected from the list.
-/

set_option autoImplicit false

namespace AheadOfTime

/-- The first answer along a list; a failure on the way there counts. -/
def firstAnswer {α β : Type} (visit : α → Except Diagnostic (Option β)) :
    List α → Except Diagnostic (Option β)
  | [] => .ok none
  | a :: l => do
    match ← visit a with
    | some answer => .ok (some answer)
    | none => firstAnswer visit l

section FirstAnswer

variable {α β : Type} {visit : α → Except Diagnostic (Option β)} {l : List α}

/-- If there is no answer, nobody has one. -/
theorem firstAnswer_eq_none (h : firstAnswer visit l = .ok none) : ∀ a ∈ l, visit a = .ok none := by
  induction l with
  | nil => simp
  | cons b l ih =>
    rw [firstAnswer] at h
    obtain ⟨answer, hanswer, h⟩ := bind_eq_ok.1 h
    cases answer with
    | some c => cases h
    | none =>
      intro a ha
      rcases List.mem_cons.1 ha with rfl | ha
      · exact hanswer
      · exact ih h a ha

/-- If asking fails, somebody who is asked fails. -/
theorem firstAnswer_eq_error {e : Diagnostic} (h : firstAnswer visit l = .error e) :
    ∃ a ∈ l, visit a = .error e := by
  induction l with
  | nil => cases h
  | cons b l ih =>
    rw [firstAnswer] at h
    rcases bind_eq_error.1 h with hb | ⟨answer, -, h⟩
    · exact ⟨b, List.mem_cons_self, hb⟩
    · cases answer with
      | some c => cases h
      | none =>
        obtain ⟨a, ha, hvisit⟩ := ih h
        exact ⟨a, List.mem_cons_of_mem _ ha, hvisit⟩

/-- The first answer is somebody's. -/
theorem exists_of_firstAnswer_eq_some {b : β} (h : firstAnswer visit l = .ok (some b)) :
    ∃ a ∈ l, visit a = .ok (some b) := by
  induction l with
  | nil => cases h
  | cons a l ih =>
    rw [firstAnswer] at h
    obtain ⟨answer, hanswer, h⟩ := bind_eq_ok.1 h
    cases answer with
    | some c =>
      cases h
      exact ⟨a, List.mem_cons_self, hanswer⟩
    | none =>
      obtain ⟨a', ha', hvisit⟩ := ih h
      exact ⟨a', List.mem_cons_of_mem _ ha', hvisit⟩

/-- Of two lists, the second is asked if there is no answer in the first. -/
theorem firstAnswer_append (k : List α) :
    firstAnswer visit (l ++ k) = firstAnswer visit l >>= fun found =>
      match found with
      | some b => .ok (some b)
      | none => firstAnswer visit k := by
  induction l with
  | nil => rfl
  | cons a l ih =>
    rw [List.cons_append, firstAnswer, firstAnswer, bind_assoc]
    congr 1
    funext answer
    cases answer with
    | some b => rfl
    | none => exact ih

/-- If nothing fails, the first answer is the first of the answers. -/
theorem firstAnswer_ok {f : α → Option β} (h : ∀ a ∈ l, visit a = .ok (f a)) :
    firstAnswer visit l = .ok (l.findSome? f) := by
  induction l with
  | nil => rfl
  | cons a l ih =>
    have hl := ih fun b hb => h b (List.mem_cons_of_mem _ hb)
    rw [firstAnswer, h a List.mem_cons_self, ok_bind, List.findSome?_cons]
    cases f a with
    | some b => rfl
    | none => exact hl

/-- If nobody has an answer, there is none. -/
theorem firstAnswer_of_forall_eq_none (h : ∀ a ∈ l, visit a = .ok none) :
    firstAnswer visit l = .ok none := by
  have hnone : l.findSome? (fun _ => (none : Option β)) = none :=
    List.findSome?_eq_none_iff.2 fun _ _ => rfl
  rw [firstAnswer_ok h, hnone]

/-- The first one to answer gives the answer. -/
theorem firstAnswer_append_cons {k : List α} {a : α} {b : β} (hl : ∀ c ∈ l, visit c = .ok none)
    (ha : visit a = .ok (some b)) : firstAnswer visit (l ++ a :: k) = .ok (some b) := by
  rw [firstAnswer_append, firstAnswer_of_forall_eq_none hl, ok_bind]
  dsimp only
  rw [firstAnswer, ha, ok_bind]

end FirstAnswer

namespace Program

variable (P : Program)

/-- A type and its base types, nearest first; at most `n` of them. -/
def chain : Nat → Ty → List Ty
  | 0, _ => []
  | n + 1, t =>
    t :: match (P.baseType t).value with
      | some base => chain n base
      | none => []

/-- What a walk finds is the first answer along the chain. -/
theorem outcome_walkUp {β : Type} (visit : Ty → Attempt (Option β)) (n : Nat) (t : Ty) :
    outcome (P.walkUp visit n t) = firstAnswer (fun u => outcome (visit u)) (P.chain n t) := by
  induction n generalizing t with
  | zero => rfl
  | succ n ih =>
    rw [walkUp, chain, firstAnswer, outcome_bind, outcome_liftM, ok_bind, outcome_bind]
    congr 1
    funext answer
    cases answer with
    | some b => rfl
    | none =>
      cases (P.baseType t).value with
      | some base => exact ih base
      | none => rfl

/-- What is found going up from a type is the first answer along its chain. -/
@[simp] theorem outcome_findUp {β : Type} (t : Ty) (visit : Ty → Attempt (Option β)) :
    outcome (P.findUp t visit) =
      firstAnswer (fun u => outcome (visit u)) (P.chain P.walkLimit t) :=
  P.outcome_walkUp visit P.walkLimit t

/-- A walk on which nothing can fail finds the first answer along the chain. -/
theorem value_walkUp {β : Type} (visit : Ty → Tracked (Option β)) (n : Nat) (t : Ty) :
    (P.walkUp visit n t).value = (P.chain n t).findSome? fun u => (visit u).value := by
  induction n generalizing t with
  | zero => rfl
  | succ n ih =>
    rw [walkUp, chain, List.findSome?_cons]
    simp only [Recorded.value_bind, liftM, monadLift, MonadLiftT.monadLift]
    cases (visit t).value with
    | some b => rfl
    | none =>
      cases (P.baseType t).value with
      | some base => exact ih base
      | none => rfl

/-- Where nothing can fail, what is found going up from a type is the first answer along its
chain. -/
@[simp] theorem value_findUp {β : Type} (t : Ty) (visit : Ty → Tracked (Option β)) :
    (P.findUp t visit).value =
      (P.chain P.walkLimit t).findSome? fun u => (visit u).value :=
  P.value_walkUp visit P.walkLimit t

/-- What is collected on a walk stands in front of what was collected before, the last first. -/
theorem value_collectFrom {β : Type} (visit : Ty → Tracked β) (n : Nat) (t : Ty)
    (collected : List β) :
    (P.collectFrom visit n t collected).value =
      ((P.chain n t).map fun u => (visit u).value).reverse ++ collected := by
  induction n generalizing t collected with
  | zero => rfl
  | succ n ih =>
    rw [collectFrom, chain]
    simp only [Recorded.value_bind]
    cases (P.baseType t).value with
    | some base => simp [ih]
    | none => simp

/-- What is collected going up from a type is what each type of its chain gives. -/
@[simp] theorem value_collectUp {β : Type} (t : Ty) (visit : Ty → Tracked β) :
    (P.collectUp t visit).value = (P.chain P.walkLimit t).map fun u => (visit u).value := by
  rw [collectUp, Recorded.value_map, value_collectFrom]
  simp

/-- The base chain of a type is its chain up to the limit. -/
@[simp] theorem value_baseChain (t : Ty) :
    (P.baseChain t).value = P.chain P.walkLimit t := by
  rw [baseChain, value_collectUp]
  simp

/-! ## Where a chain starts and ends -/

/-- A shorter walk is the beginning of a longer one. -/
theorem chain_prefix {n k : Nat} (hnk : n ≤ k) (t : Ty) : P.chain n t <+: P.chain k t := by
  induction n generalizing k t with
  | zero => exact List.nil_prefix
  | succ n ih =>
    obtain ⟨k, rfl⟩ : ∃ j, k = j + 1 := ⟨k - 1, by omega⟩
    rw [chain, chain]
    apply (List.prefix_cons_inj t).2
    cases (P.baseType t).value with
    | none => exact List.prefix_rfl
    | some base => exact ih (by omega) base

/-- What a shorter walk meets a longer one meets. -/
theorem chain_subset {n k : Nat} (hnk : n ≤ k) (t : Ty) : P.chain n t ⊆ P.chain k t :=
  (P.chain_prefix hnk t).subset

/-- From a type on a chain, the chain goes on as that of the type itself, and all that comes before
it has it on its own chain. -/
theorem exists_chain_eq_append {n : Nat} {t u : Ty} (h : u ∈ P.chain n t) :
    ∃ before k, P.chain n t = before ++ P.chain (k + 1) u ∧ before.length + (k + 1) = n ∧
      ∀ v ∈ before, v ≠ u ∧ u ∈ P.chain n v := by
  induction n generalizing t with
  | zero => cases h
  | succ n ih =>
    by_cases htu : u = t
    · subst htu
      exact ⟨[], n, rfl, by simp, by simp⟩
    · have hmem := h
      rw [chain] at hmem
      have htail := (List.mem_cons.1 hmem).resolve_left htu
      cases hbase : (P.baseType t).value with
      | none =>
        rw [hbase] at htail
        cases htail
      | some base =>
        rw [hbase] at htail
        obtain ⟨before, k, hchain, hlength, hbefore⟩ := ih htail
        refine ⟨t :: before, k, ?_, ?_, ?_⟩
        · rw [chain, hbase, List.cons_append]
          exact congrArg (t :: ·) hchain
        · rw [List.length_cons]
          omega
        · intro v hv
          rcases List.mem_cons.1 hv with rfl | hv
          · exact ⟨fun hvu => htu hvu.symm, h⟩
          · obtain ⟨hne, hmem⟩ := hbefore v hv
            exact ⟨hne, P.chain_subset (Nat.le_succ n) v hmem⟩

/-- The types that a type extends, nearest first. -/
def properBases (t : Ty) : List Ty :=
  (P.chain (P.walkLimit + 1) t).tail

/-- The proper base types are those along the chain of what the type extends. -/
theorem mem_properBases {t u : Ty} : u ∈ P.properBases t ↔
    ∃ b, (P.baseType t).value = some b ∧ u ∈ P.chain P.walkLimit b := by
  rw [properBases, chain, List.tail_cons]
  cases (P.baseType t).value <;> simp

/-- Along the chain of a type, all others are proper base types. -/
theorem mem_properBases_of_mem_chain {t u : Ty} (h : u ∈ P.chain P.walkLimit t) (hne : u ≠ t) :
    u ∈ P.properBases t := by
  have hmem := P.chain_subset (Nat.le_succ P.walkLimit) t h
  rw [chain] at hmem
  exact (List.mem_cons.1 hmem).resolve_left hne

/-! ## Base types -/

/-- What an instantiation extends is what is declared, with its arguments put in. -/
theorem value_baseType_of_decl? {t : Ty} {d : TypeDecl} (h : t.decl? = some d) :
    (P.baseType t).value = (P.record d).base.join.map (Ty.subst { ofType := t.args }) := by
  unfold baseType
  rw [h]
  dsimp only
  cases (P.record d).base.join <;> simp

/-! ## Casts -/

/-- A type is a subclass of those along its chain. -/
theorem value_isSubclassOf {t base : Ty} :
    (P.isSubclassOf t base).value = true ↔ base ∈ P.chain P.walkLimit t := by
  unfold isSubclassOf
  simp only [Recorded.value_bind, value_findUp, Recorded.value_pure, List.findSome?_isSome_iff]
  constructor
  · rintro ⟨u, hu, hfound⟩
    split at hfound
    · next heq => exact heq ▸ hu
    · cases hfound
  · intro hbase
    exact ⟨base, hbase, by simp⟩

/-- A type extends or implements a class if it is the class or has it along its chain. -/
theorem value_extendsOrImplements {t target : Ty} (hclass : target.isInterface = false) :
    (P.extendsOrImplements t target).value = true ↔
      t = target ∨ target ∈ P.chain P.walkLimit t := by
  unfold extendsOrImplements
  rw [← value_isSubclassOf]
  by_cases htarget : t = target
  · simp [htarget]
  · cases hsub : (P.isSubclassOf t target).value <;> simp [htarget, hsub, hclass]

/-- Every type can be cast to itself. -/
theorem value_canCast_self (t : Ty) : (P.canCast t t).value = true := by
  have hself : (P.extendsOrImplements t t).value = true := by simp [extendsOrImplements]
  unfold canCast
  rw [Recorded.value_bind, if_pos hself]
  rfl

/-- A class that a type can be cast to is the type itself or one that it extends, unless both are
arrays. -/
theorem mem_chain_of_canCast {c t : Ty} (h : (P.canCast c t).value = true)
    (hclass : t.isInterface = false) (harrays : ¬ (c.isArray = true ∧ t.isArray = true)) :
    c = t ∨ t ∈ P.chain P.walkLimit c := by
  rw [← P.value_extendsOrImplements hclass]
  refine Decidable.byContradiction fun hdirect => ?_
  unfold canCast at h
  rw [Recorded.value_bind, if_neg hdirect] at h
  split at h
  · exact absurd ⟨rfl, rfl⟩ harrays
  · cases h

/-- A type derives from a class, up to canonical forms, if its chain has a type with the same
canonical form. -/
theorem derivesUpToCanon_of_mem_chain {t u target : Ty} (htarget : target.isInterface = false)
    (hu : u ∈ P.chain P.walkLimit t) (h : u.canonical = target.canonical) :
    (P.derivesUpToCanon t target).value = true := by
  unfold derivesUpToCanon
  simp only [Recorded.value_bind, Ty.value_canonicalForm, Ty.isInterface_canonical, htarget,
    Bool.false_eq_true, if_false, value_findUp, Recorded.value_pure]
  rw [List.findSome?_isSome_iff]
  exact ⟨u, hu, by simp [h]⟩

/-- A type derives from an interface, up to canonical forms, if it has an interface with the same
canonical form. -/
theorem derivesUpToCanon_of_mem_interfaces {t u target : Ty} (htarget : target.isInterface = true)
    (hu : u ∈ (P.allInterfaces t).value) (h : u.canonical = target.canonical) :
    (P.derivesUpToCanon t target).value = true := by
  unfold derivesUpToCanon
  simp only [Recorded.value_bind, Ty.value_canonicalForm, Ty.isInterface_canonical, htarget,
    if_true, Recorded.value_anyM, Recorded.value_pure]
  exact List.any_eq_true.2 ⟨u, hu, by simp [h]⟩

/-! ## Methods -/

/-- The methods that a type declares. -/
def methods (t : Ty) : List Method :=
  match t.decl? with
  | some d => (P.record d).methods.map fun m => ⟨m, t, []⟩
  | none => []

/-- The methods of a type are those declared for it, seen through it. -/
@[simp] theorem value_methodsOf (t : Ty) : (P.methodsOf t).value = P.methods t := by
  unfold methodsOf methods
  cases t.decl? <;> simp

/-- A method is declared by the program. -/
def Declares (m : Method) : Prop :=
  ∃ d, m.owner.decl? = some d ∧ m.decl ∈ (P.record d).methods

/-- A method of a type is a declared one that has this owner and no arguments. -/
theorem mem_methods {m : Method} {t : Ty} :
    m ∈ P.methods t ↔ P.Declares m ∧ m.owner = t ∧ m.args = [] := by
  unfold methods Declares
  constructor
  · intro h
    split at h
    · next d hd =>
      obtain ⟨decl, hdecl, rfl⟩ := List.mem_map.1 h
      exact ⟨⟨d, hd, hdecl⟩, rfl, rfl⟩
    · simp at h
  · rintro ⟨⟨d, hd, hdecl⟩, rfl, hargs⟩
    rw [hd]
    refine List.mem_map.2 ⟨m.decl, hdecl, ?_⟩
    rw [← hargs]

end Program

end AheadOfTime
