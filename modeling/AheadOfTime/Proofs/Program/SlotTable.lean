import AheadOfTime.Proofs.Program.Dispatch
import AheadOfTime.Proofs.Program.Instantiated
import AheadOfTime.Proofs.Roster
import Mathlib.Data.List.Nodup
import Mathlib.Logic.Relation

/-!
# Tables of slots

The slots of a type are found by asking of each virtual method on its chain whether the search for
its slot ends where it began.  Nothing stores the slot of a method; the list of the slots, the search
for one and the search for what fills it are three walks of their own.  They agree: the slots of a
type are listed once each, every virtual method without generic parameters occupies one of them, and
what a call leads to depends only on the slot.

The search for a slot goes from a method to the one that it overrides.  It never leaves the chain and
never goes down (`GoesOn.onChain`).  So either it visits different methods only, of which there are
not more than were declared, and ends (`OnChain.exists_hasSlot`), or it comes back to a method.  It can only
do so on one type, whose methods override one another explicitly in a circle (`OnChain.circles`), and
then it goes on forever.  A type has a table of slots just if this happens to none of the methods that
the list asks about.  A call asks about others too, on its way to what fills a slot: about generic
methods and about those that are overridden explicitly, but only until it is answered (`Asked`).
-/

set_option autoImplicit false

namespace AheadOfTime

open Relation (TransGen ReflTransGen)

namespace Program

variable {P : Program}

/-! ## Chains that end -/

/-- The base types of a type come to an end: with the type itself, there are at most `n`. -/
inductive Ends (P : Program) : Nat → Ty → Prop
  | of_base {n : Nat} {t : Ty} :
      (∀ b, (P.baseType t).value = some b → P.Ends n b) → P.Ends (n + 1) t

/-- A chain that could be longer has come to an end. -/
theorem ends_of_length {n : Nat} {t : Ty} (h : (P.chain n t).length < n) : P.Ends n t := by
  induction n generalizing t with
  | zero => cases h
  | succ n ih =>
    refine .of_base fun b hb => ?_
    rw [chain, hb] at h
    exact ih (Nat.lt_of_succ_lt_succ h)

namespace Ends

variable {n k : Nat} {t u b : Ty}

/-- Base types that come to an end do so for every larger number. -/
theorem mono (h : P.Ends n t) (hle : n ≤ k) : P.Ends k t := by
  induction h generalizing k with
  | of_base _ ih =>
    obtain ⟨k, rfl⟩ : ∃ j, k = j + 1 := ⟨k - 1, by omega⟩
    exact .of_base fun b hb => ih b hb (by omega)

/-- Once the base types have come to an end, a longer walk meets no others. -/
theorem chain_eq (h : P.Ends n t) (hle : n ≤ k) : P.chain k t = P.chain n t := by
  induction h generalizing k with
  | @of_base n t _ ih =>
    obtain ⟨k, rfl⟩ : ∃ j, k = j + 1 := ⟨k - 1, by omega⟩
    rw [chain, chain]
    cases hb : (P.baseType t).value with
    | none => rfl
    | some b => exact congrArg (t :: ·) (ih b hb (by omega))

/-- If base types come to an end, the walk begins with the type itself. -/
theorem mem_chain_self (h : P.Ends n t) : t ∈ P.chain n t := by
  cases h with
  | of_base _ => exact List.mem_cons_self

/-- What a base type extends is extended by the type too. -/
theorem mem_chain_of_base (h : P.Ends n t) (hb : (P.baseType t).value = some b)
    (hu : u ∈ P.chain n b) : u ∈ P.chain n t := by
  cases h with
  | of_base h =>
    rw [(h b hb).chain_eq (Nat.le_succ _)] at hu
    rw [chain, hb]
    exact List.mem_cons_of_mem _ hu

/-- On a chain, there is the type itself and what its base type extends. -/
theorem exists_base_of_mem (h : P.Ends (n + 1) t) (hu : u ∈ P.chain (n + 1) t) (hne : u ≠ t) :
    ∃ b, (P.baseType t).value = some b ∧ P.Ends n b ∧ u ∈ P.chain n b := by
  rw [chain] at hu
  have hu := (List.mem_cons.1 hu).resolve_left hne
  cases hb : (P.baseType t).value with
  | none =>
    rw [hb] at hu
    cases hu
  | some b =>
    rw [hb] at hu
    cases h with
    | of_base h => exact ⟨b, rfl, h b hb, hu⟩

/-- The chain of a type on a chain ends too, and is part of that chain. -/
theorem of_mem (h : P.Ends n t) (hu : u ∈ P.chain n t) :
    P.Ends n u ∧ P.chain n u ⊆ P.chain n t := by
  induction n generalizing t with
  | zero => cases h
  | succ n ih =>
    by_cases hne : u = t
    · rw [hne]
      exact ⟨h, List.Subset.refl _⟩
    · obtain ⟨b, hb, hends, hmem⟩ := h.exists_base_of_mem hu hne
      obtain ⟨hends, hsub⟩ := ih hends hmem
      refine ⟨hends.mono (Nat.le_succ n), ?_⟩
      rw [hends.chain_eq (Nat.le_succ n), chain, hb]
      exact List.Subset.trans hsub (List.subset_cons_self _ _)

/-- No type extends itself. -/
theorem not_mem_chain (h : P.Ends n t) (hb : (P.baseType t).value = some b) :
    t ∉ P.chain n b := by
  induction n with
  | zero => cases h
  | succ n ih =>
    intro ht
    cases h with
    | of_base h =>
      rw [(h b hb).chain_eq (Nat.le_succ n)] at ht
      exact ih ((h b hb).of_mem ht).1 ht

/-- If base types come to an end, none of them comes twice. -/
theorem nodup_chain (h : P.Ends n t) : (P.chain n t).Nodup := by
  induction h with
  | @of_base n t h ih =>
    rw [chain]
    cases hb : (P.baseType t).value with
    | none => exact List.nodup_singleton t
    | some b =>
      refine List.nodup_cons.2 ⟨fun ht => ?_, ih b hb⟩
      exact (Ends.of_base h).not_mem_chain hb (P.chain_subset (Nat.le_succ n) b ht)

/-- Two types that extend each other are the same. -/
theorem eq_of_mem_chain (h : P.Ends n t) (hu : u ∈ P.chain n t) (ht : t ∈ P.chain n u) : u = t := by
  by_contra hne
  cases n with
  | zero => cases h
  | succ n =>
    obtain ⟨b, hb, hends, hmem⟩ := h.exists_base_of_mem hu hne
    obtain ⟨hends, hsub⟩ := hends.of_mem hmem
    rw [hends.chain_eq (Nat.le_succ n)] at ht
    exact h.not_mem_chain hb (P.chain_subset (Nat.le_succ n) b (hsub ht))

end Ends

/-! ## Methods are declared once -/

/-- The methods of a type have different numbers, which are all taken. -/
structure Numbered (P : Program) : Prop where
  nodup : ∀ d, (P.record d).methods.Nodup
  taken : ∀ d, ∀ m ∈ (P.record d).methods, m.id < P.methodCount

namespace Numbered

variable {P' : Program}

/-- Numbers stay in order if no methods are added. -/
theorem of_methods (h : P.Numbered) (hcount : P'.methodCount = P.methodCount)
    (hmethods : ∀ d, (P'.record d).methods = (P.record d).methods) : P'.Numbered := by
  constructor
  · intro d
    rw [hmethods]
    exact h.nodup d
  · intro d
    rw [hmethods, hcount]
    exact h.taken d

/-- Numbers stay in order under changes that leave methods alone. -/
theorem modifyRecord (h : P.Numbered) (d : TypeDecl) {f : TypeRecord → TypeRecord}
    (hf : ∀ r, (f r).methods = r.methods) : (P.modifyRecord d f).Numbered := by
  refine h.of_methods rfl fun e => ?_
  rcases P.record_modifyRecord d e f with he | ⟨-, he⟩
  · rw [he]
  · rw [he, hf]

/-- Numbers stay in order when a type is defined. -/
theorem define (h : P.Numbered) {space name : String} {flags : TypeFlags} {arity : Nat}
    {d : TypeDecl} (hdefine : P.define space name flags arity = .ok (d, P')) : P'.Numbered := by
  have hcount : P'.methodCount = P.methodCount := by rw [(define_eq_ok hdefine).2]
  refine h.of_methods hcount fun e => ?_
  rcases record_define hdefine e with he | ⟨hnew, he⟩
  · rw [he]
  · rw [hnew, he]

/-- Numbers stay in order when a method with the next number is added. -/
theorem append (h : P.Numbered) {m : MethodDecl} (hid : m.id = P.methodCount)
    (hcount : P'.methodCount = P.methodCount + 1)
    (hmethods : ∀ d, (P'.record d).methods = (P.record d).methods ∨
      (P'.record d).methods = (P.record d).methods ++ [m]) : P'.Numbered := by
  have hnew : ∀ d, m ∉ (P.record d).methods := fun d hm =>
    Nat.lt_irrefl _ (hid ▸ h.taken d m hm)
  have hold : ∀ d, ∀ m' ∈ (P.record d).methods, m'.id < P'.methodCount := fun d m' hm' =>
    hcount ▸ Nat.lt_succ_of_lt (h.taken d m' hm')
  constructor
  · intro d
    rcases hmethods d with hd | hd
    · exact hd ▸ h.nodup d
    · refine hd ▸ List.nodup_append.2 ⟨h.nodup d, List.nodup_singleton m, ?_⟩
      rintro a ha b hb rfl
      exact hnew d (List.mem_singleton.1 hb ▸ ha)
  · intro d m' hm'
    rcases hmethods d with hd | hd
    · exact hold d m' (hd ▸ hm')
    · rcases List.mem_append.1 (hd ▸ hm') with hm' | hm'
      · exact hold d m' hm'
      · rw [List.mem_singleton.1 hm', hid, hcount]
        exact Nat.lt_succ_self _

/-- Numbers stay in order when a method is declared. -/
theorem addMethod (h : P.Numbered) {owner : Ty} {name : String} {signature : Signature}
    {flags : MethodFlags} {m : MethodDecl}
    (hadd : P.addMethod owner name signature flags = .ok (m, P')) : P'.Numbered := by
  obtain ⟨d, -, hm, rfl⟩ := addMethod_eq_ok hadd
  refine h.append (congrArg MethodDecl.id hm) rfl fun e => ?_
  exact (P.record_modifyRecord d e _).imp (congrArg TypeRecord.methods) fun he =>
    congrArg TypeRecord.methods he.2

end Numbered

/-- In a program that declarations lead to, methods have different numbers. -/
theorem Built.numbered (h : P.Built) : P.Numbered := by
  induction h with
  | initial =>
    have hnone : ∀ d, (Program.initial.record d).methods = [] := by
      intro d
      unfold record Program.initial
      simp only [List.getElem?_toArray, List.getElem?_map]
      cases WellKnown.all[d.id]? <;> rfl
    constructor
    · intro d
      rw [hnone]
      exact List.nodup_nil
    · intro d
      rw [hnone]
      exact List.forall_mem_nil _
  | define _ hdefine ih => exact ih.define hdefine
  | setBase _ hset ih =>
    obtain ⟨d, -, rfl⟩ := setBase_eq_ok hset
    exact ih.modifyRecord d fun _ => rfl
  | setInterfaces _ hset ih =>
    obtain ⟨d, rfl⟩ := setInterfaces_eq_ok hset
    exact ih.modifyRecord d fun _ => rfl
  | addMethod _ hadd ih => exact ih.addMethod hadd
  | @addField _ _ _ _ _ _ f _ hadd ih =>
    obtain ⟨d, rfl⟩ := addField_eq_ok hadd
    have hmodify := ih.modifyRecord d (f := fun r => { r with fields := r.fields ++ [f] })
      fun _ => rfl
    exact hmodify.of_methods rfl fun _ => rfl
  | addOverride _ _ hadd ih =>
    obtain ⟨d, -, -, rfl⟩ := addOverride_eq_ok hadd
    exact ih.modifyRecord d fun _ => rfl
  | setBody _ ih => exact ih.of_methods rfl fun _ => rfl

/-- A type declares no method twice. -/
theorem Numbered.nodup_methods (h : P.Numbered) (t : Ty) : (P.methods t).Nodup := by
  unfold methods
  cases t.decl? with
  | none => exact List.nodup_nil
  | some d => exact (h.nodup d).map fun m m' heq => congrArg Method.decl heq

/-! ## Searches that end -/

/-- By way of other methods of its type or not, a method overrides itself. -/
def Circles (P : Program) (m : Method) : Prop :=
  TransGen (fun a b => P.GoesOn a b ∧ b.owner = a.owner) m m

/-- The search for the slot of such a method never comes to an end. -/
theorem Circles.not_searchEnds {m : Method} (h : P.Circles m) : ¬ P.SearchEnds m :=
  not_searchEnds_of_circle (TransGen.mono (fun _ _ hstep => hstep.1) _ _ h)

/-- A type that can have a table of slots. -/
structure Regular (P : Program) (t : Ty) : Prop where
  /-- Its base types come to an end before the limit. -/
  ends : P.Ends P.walkLimit t
  /-- So does whoever goes through the methods on the chain. -/
  few : ((P.chain P.walkLimit t).flatMap P.methods).length ≤ P.walkLimit
  /-- No type on the chain is an interface. -/
  classes : ∀ u ∈ P.chain P.walkLimit t, u.isInterface = false
  /-- No type on the chain has overrides that are in conflict. -/
  settled : ∀ u ∈ P.chain P.walkLimit t, ∃ overrides, outcome (P.overridesOf u) = .ok overrides
  /-- A class overrides explicitly what interfaces, the class itself or its base types declare, and
  with as many generic parameters. -/
  overrides : ∀ u ∈ P.chain P.walkLimit t, ∀ overrides, outcome (P.overridesOf u) = .ok overrides →
    ∀ o ∈ overrides, o.decl.owner.isInterface = false →
      o.decl.owner ∈ P.chain P.walkLimit u ∧ o.decl.arity = o.body.arity

/-- A virtual method that is declared on the chain of a type. -/
structure OnChain (P : Program) (t : Ty) (m : Method) : Prop extends P.IsVirtualDefinition m where
  owner : m.owner ∈ P.chain P.walkLimit t

/-- The virtual methods on the chain of a type are the virtual ones among the methods of the types
there. -/
theorem onChain_iff {t : Ty} {m : Method} : P.OnChain t m ↔
    m.isVirtual = true ∧ ∃ u ∈ P.chain P.walkLimit t, m ∈ P.methods u := by
  constructor
  · intro h
    exact ⟨h.virtual, m.owner, h.owner, P.mem_methods.2 ⟨h.declared, rfl, h.noArgs⟩⟩
  · rintro ⟨hv, u, hu, hm⟩
    obtain ⟨hd, rfl, hargs⟩ := P.mem_methods.1 hm
    exact ⟨⟨hv, hd, hargs⟩, hu⟩

section Regular

variable {t : Ty} {m next : Method} (hP : P.WellFormed) (ht : P.Regular t)

include hP ht

/-- The search stays on the chain and goes up, and the number of generic parameters stays. -/
theorem GoesOn.onChain (h : P.GoesOn m next) (hm : P.OnChain t m) :
    P.OnChain t next ∧ next.owner ∈ P.chain P.walkLimit m.owner ∧ next.arity = m.arity := by
  obtain ⟨hends, hsub⟩ := ht.ends.of_mem hm.owner
  have hdefinition := hP.overridden h.next
  have hstep : next.owner ∈ P.chain P.walkLimit m.owner ∧ next.arity = m.arity := by
    rcases exists_of_overridden? h.next with ⟨overrides, hoverrides, o, ho, rfl, hclass, rfl⟩ |
        ⟨base, hbase, hmem, -, -, hsame⟩
    · exact ht.overrides _ hm.owner _ hoverrides o ho hclass
    · exact ⟨hends.mem_chain_of_base hbase hmem,
        arity_eq_of_sameNameAndSignature hdefinition.noArgs hm.noArgs hsame⟩
  exact ⟨⟨hdefinition, hsub hstep.1⟩, hstep⟩

omit hP in
/-- On the chain of a regular type, it can be told what a method overrides. -/
theorem exists_overridden? (hm : P.OnChain t m) :
    ∃ next, outcome (P.overridden? m) = .ok next := by
  obtain ⟨overrides, hoverrides⟩ := ht.settled _ hm.owner
  rw [outcome_overridden?, hoverrides, ok_bind]
  split <;> exact ⟨_, rfl⟩

/-- A search of so many steps gives a method on the chain.  It has come to an end, or has visited a
further method in each step. -/
theorem exists_slotFrom (n : Nat) (hm : P.OnChain t m) :
    ∃ s, outcome (P.slotFrom n m) = .ok s ∧ P.OnChain t s ∧ s.arity = m.arity ∧
      (P.IntroducesSlot s ∨ ∃ path : List Method, path.length = n ∧
        (m :: path).IsChain P.GoesOn ∧ ∀ x ∈ m :: path, P.OnChain t x) := by
  induction n generalizing m with
  | zero =>
    refine ⟨m, rfl, hm, rfl, .inr ⟨[], rfl, List.IsChain.singleton m, ?_⟩⟩
    exact List.forall_mem_singleton.2 hm
  | succ n ih =>
    obtain ⟨next, hnext⟩ := exists_overridden? ht hm
    cases hnew : m.isNewSlot with
    | true =>
      have hintro : P.IntroducesSlot m := .inr (.inl hnew)
      exact ⟨m, hintro.slotFrom _, hm, rfl, .inl hintro⟩
    | false =>
      cases next with
      | none =>
        have hintro : P.IntroducesSlot m := .inr (.inr hnext)
        exact ⟨m, hintro.slotFrom _, hm, rfl, .inl hintro⟩
      | some next =>
        have hstep : P.GoesOn m next := ⟨hm.virtual, hnew, hnext⟩
        obtain ⟨hon, -, harity⟩ := hstep.onChain hP ht hm
        obtain ⟨s, hs, hons, haritys, hend⟩ := ih hon
        refine ⟨s, (slotFrom_of_overridden? hm.virtual hnew hnext).trans hs, hons,
          haritys.trans harity, hend.imp_right ?_⟩
        rintro ⟨path, hlength, hpath, hall⟩
        exact ⟨next :: path, congrArg (· + 1) hlength, List.isChain_cons_cons.2 ⟨hstep, hpath⟩,
          List.forall_mem_cons.2 ⟨hm, hall⟩⟩

/-- The slot of a method on the chain is where the search for it is cut off, if not before. -/
theorem OnChain.exists_slotOf (hm : P.OnChain t m) :
    ∃ s, outcome (P.slotOf m) = .ok s ∧ outcome (P.slotFrom P.walkLimit m) = .ok s := by
  obtain ⟨s, hs, -⟩ := exists_slotFrom hP ht P.walkLimit hm
  refine ⟨s, ?_, hs⟩
  rw [outcome_slotOf, hm.definition_eq, hs, ok_bind, hm.noArgs]
  rfl

/-- A search that never comes back to a method ends within the limit. -/
theorem OnChain.exists_hasSlot (hm : P.OnChain t m)
    (hcircle : ∀ x, ReflTransGen P.GoesOn m x → ¬ TransGen P.GoesOn x x) :
    ∃ s, P.HasSlot m s ∧ P.OnChain t s ∧ s.arity = m.arity := by
  obtain ⟨s, hslot, hs⟩ := hm.exists_slotOf hP ht
  obtain ⟨s', hs', hon, harity, hend⟩ := exists_slotFrom hP ht P.walkLimit hm
  cases hs.symm.trans hs'
  refine ⟨s, ⟨hslot, hend.resolve_right ?_⟩, hon, harity⟩
  rintro ⟨path, hlength, hpath, hall⟩
  -- all the methods that were visited are different, so that there are more of them than declared
  have : Trans (TransGen P.GoesOn) (TransGen P.GoesOn)
      (TransGen P.GoesOn) := ⟨TransGen.trans⟩
  have hpairwise : (m :: path).Pairwise (TransGen P.GoesOn) :=
    List.isChain_iff_pairwise.1 (hpath.imp fun _ _ => .single)
  have hreach : ∀ x ∈ m :: path, ReflTransGen P.GoesOn m x :=
    List.forall_mem_cons.2 ⟨.refl, fun x hx =>
      ((List.pairwise_cons.1 hpairwise).1 x hx).to_reflTransGen⟩
  have hnodup : (m :: path).Nodup := by
    refine List.Pairwise.imp_of_mem ?_ hpairwise
    rintro a b ha - hab rfl
    exact hcircle a (hreach a ha) hab
  have hsub : m :: path ⊆ (P.chain P.walkLimit t).flatMap P.methods := by
    intro x hx
    exact List.mem_flatMap.2 (onChain_iff.1 (hall x hx)).2
  have hle := Nat.le_trans (hnodup.length_le_of_subset hsub) ht.few
  rw [List.length_cons, hlength] at hle
  exact Nat.lt_irrefl _ hle

/-- Whatever a search reaches is on the chain, further up, and has as many generic parameters. -/
theorem OnChain.of_reach (hm : P.OnChain t m) (h : ReflTransGen P.GoesOn m next) :
    P.OnChain t next ∧ next.owner ∈ P.chain P.walkLimit m.owner ∧ next.arity = m.arity := by
  have hends := (ht.ends.of_mem hm.owner).1
  induction h with
  | refl => exact ⟨hm, hends.mem_chain_self, rfl⟩
  | tail _ hstep ih =>
    obtain ⟨hon, hup, harity⟩ := hstep.onChain hP ht ih.1
    exact ⟨hon, (hends.of_mem ih.2.1).2 hup, harity.trans ih.2.2⟩

/-- A search that comes back to a method has not left its type. -/
theorem OnChain.circles (hm : P.OnChain t m) (h : TransGen P.GoesOn m m) :
    P.Circles m := by
  have hstay : ∀ {a b : Method}, ReflTransGen P.GoesOn m a → P.GoesOn a b →
      ReflTransGen P.GoesOn b m → b.owner = a.owner := by
    intro a b hma hab hbm
    have ha := (hm.of_reach hP ht hma).1
    obtain ⟨hb, hup, -⟩ := hab.onChain hP ht ha
    have hback := (hb.of_reach hP ht (hbm.trans hma)).2.1
    exact (ht.ends.of_mem ha.owner).1.eq_of_mem_chain hup hback
  have hlift : ∀ {b : Method}, TransGen P.GoesOn m b →
      ReflTransGen P.GoesOn b m →
      TransGen (fun a b => P.GoesOn a b ∧ b.owner = a.owner) m b := by
    intro b hmb
    induction hmb with
    | single hstep => exact fun hback => .single ⟨hstep, hstay .refl hstep hback⟩
    | tail hma hstep ih =>
      intro hback
      exact (ih (.head hstep hback)).tail ⟨hstep, hstay hma.to_reflTransGen hstep hback⟩
  exact hlift h .refl

/-- The search for the slot that a method has comes to an end. -/
theorem HasSlot.searchEnds {s : Method} (h : P.HasSlot m s) (hm : P.OnChain t m) :
    P.SearchEnds m := by
  obtain ⟨s', hfound, hs⟩ := hm.exists_slotOf hP ht
  cases h.found.symm.trans hfound
  exact ⟨P.walkLimit, .inr ⟨s, hs, h.introduces⟩⟩

/-- A search that comes to an end does so within the limit. -/
theorem SearchEnds.exists_hasSlot (h : P.SearchEnds m) (hm : P.OnChain t m) :
    ∃ s, P.HasSlot m s ∧ P.OnChain t s ∧ s.arity = m.arity :=
  hm.exists_hasSlot hP ht fun _ hx hback => not_searchEnds_of_circle hback (h.of_reach hx)

/-- The search for the slot of a method on the chain comes to an end just if it meets no circle. -/
theorem OnChain.searchEnds_iff (hm : P.OnChain t m) :
    P.SearchEnds m ↔ ∀ x, ReflTransGen P.GoesOn m x → ¬ P.Circles x := by
  constructor
  · intro h x hx hcircles
    exact hcircles.not_searchEnds (h.of_reach hx)
  · intro h
    obtain ⟨s, hslot, -⟩ := hm.exists_hasSlot hP ht fun x hx hback =>
      h x hx ((hm.of_reach hP ht hx).1.circles hP ht hback)
    exact hslot.searchEnds hP ht hm

end Regular

/-! ## What fills a slot -/

/-- What may fill a slot on a type: the body of an explicit override, if what it overrides occupies the
slot, and a method of the same name, if it does so itself.  Each comes after the method whose slot has
to be asked for. -/
def candidates (P : Program) (slot : Method) (u : Ty) : List (Method × Method) :=
  (match outcome (P.overridesOf u) with
    | .ok overrides => (overrides.filter fun o => !o.decl.owner.isInterface).map fun o =>
        (o.decl.definition, o.body.definition)
    | .error _ => []) ++
  ((P.methods u).filter fun m => m.isVirtual && m.name == slot.name).map fun m => (m, m)

/-- Whether a method is found to occupy a slot. -/
def occupies (P : Program) (slot m : Method) : Bool :=
  match outcome (P.slotOf m) with
  | .ok other => other.decl == slot.decl
  | .error _ => false

/-- To find what fills a slot on an object of type `t`, the slot of the method of a candidate is asked
for: no candidate that comes before it fills the slot. -/
def Asked (P : Program) (t : Ty) (slot : Method) (c : Method × Method) : Prop :=
  ∃ before after, (P.chain P.walkLimit t).flatMap (P.candidates slot) = before ++ c :: after ∧
    ∀ b ∈ before, P.occupies slot b.1 = false

/-- A candidate that is asked about fills the slot, as the search for the slot of its method ends
there. -/
def Fills (P : Program) (t : Ty) (slot target : Method) : Prop :=
  ∃ m s, P.Asked t slot (m, target) ∧ P.HasSlot m s ∧ s.decl = slot.decl

/-- A method that is declared on the chain of a type, or that overrides explicitly on it. -/
def Lands (P : Program) (t : Ty) (target : Method) : Prop :=
  ∃ u ∈ P.chain P.walkLimit t, target ∈ P.methods u ∨
    ∃ overrides, outcome (P.overridesOf u) = .ok overrides ∧ ∃ o ∈ overrides,
      target = o.body.definition

section Fillers

variable {t u : Ty} {slot m s : Method} {c : Method × Method}

/-- A candidate stands for an explicit override of a class method or for a virtual method. -/
theorem exists_of_mem_candidates (hc : c ∈ P.candidates slot u) :
    (∃ overrides, outcome (P.overridesOf u) = .ok overrides ∧ ∃ o ∈ overrides,
      o.decl.owner.isInterface = false ∧ c = (o.decl.definition, o.body.definition)) ∨
    ∃ m ∈ P.methods u, m.isVirtual = true ∧ c = (m, m) := by
  rcases List.mem_append.1 hc with hc | hc
  · left
    cases hoverrides : outcome (P.overridesOf u) with
    | error e =>
      rw [hoverrides] at hc
      cases hc
    | ok overrides =>
      rw [hoverrides] at hc
      obtain ⟨o, ho, rfl⟩ := List.mem_map.1 hc
      obtain ⟨ho, hclass⟩ := List.mem_filter.1 ho
      exact ⟨overrides, rfl, o, ho, by simpa using hclass, rfl⟩
  · right
    obtain ⟨m, hm, rfl⟩ := List.mem_map.1 hc
    obtain ⟨hm, hv⟩ := List.mem_filter.1 hm
    rw [Bool.and_eq_true] at hv
    exact ⟨m, hm, hv.1, rfl⟩

/-- What comes of a candidate is declared on the chain, or overrides explicitly on it. -/
theorem lands_of_mem_candidates (hu : u ∈ P.chain P.walkLimit t) (hc : c ∈ P.candidates slot u) :
    P.Lands t c.2 := by
  rcases exists_of_mem_candidates hc with ⟨overrides, hoverrides, o, ho, -, rfl⟩ | ⟨m, hm, -, rfl⟩
  · exact ⟨u, hu, .inr ⟨overrides, hoverrides, o, ho, rfl⟩⟩
  · exact ⟨u, hu, .inl hm⟩

/-- Whoever is asked is a candidate of some type along the chain. -/
theorem Asked.exists_mem (h : P.Asked t slot c) :
    ∃ u ∈ P.chain P.walkLimit t, c ∈ P.candidates slot u := by
  obtain ⟨before, after, heq, -⟩ := h
  exact List.mem_flatMap.1 (heq ▸ List.mem_append_right _ List.mem_cons_self)

/-- A method with a slot occupies those of the same declaration. -/
theorem HasSlot.occupies_eq (h : P.HasSlot m s) : P.occupies slot m = (s.decl == slot.decl) := by
  rw [occupies, h.found]

variable (hP : P.WellFormed) (ht : P.Regular t)
include hP ht

/-- What is overridden explicitly on the chain is on the chain, if it belongs to a class. -/
theorem onChain_of_override (hu : u ∈ P.chain P.walkLimit t) {overrides : List Override}
    (hoverrides : outcome (P.overridesOf u) = .ok overrides) {o : Override} (ho : o ∈ overrides)
    (hclass : o.decl.owner.isInterface = false) : P.OnChain t o.decl.definition := by
  obtain ⟨hv, hd⟩ := hP.override hoverrides ho
  have howner := (ht.overrides u hu overrides hoverrides o ho hclass).1
  exact ⟨⟨hv, hd, rfl⟩, (ht.ends.of_mem hu).2 howner⟩

/-- The method of a candidate is on the chain. -/
theorem onChain_of_mem_candidates (hu : u ∈ P.chain P.walkLimit t) (hc : c ∈ P.candidates slot u) :
    P.OnChain t c.1 := by
  rcases exists_of_mem_candidates hc with ⟨overrides, hoverrides, o, ho, hclass, rfl⟩ |
      ⟨m, hm, hv, rfl⟩
  · exact onChain_of_override hP ht hu hoverrides ho hclass
  · exact onChain_iff.2 ⟨hv, u, hu, hm⟩

/-- Whether a method on the chain occupies a slot can be told. -/
theorem OnChain.outcome_occupies (hm : P.OnChain t m) :
    (outcome (P.slotOf m) >>= fun other => .ok (other.decl == slot.decl)) =
      .ok (P.occupies slot m) := by
  obtain ⟨s, hs, -⟩ := hm.exists_slotOf hP ht
  rw [occupies, hs]
  rfl

/-- Among explicit overrides, the first is found that is of a class method which occupies the slot. -/
theorem findM?_overrides (slot : Method) (hu : u ∈ P.chain P.walkLimit t) {overrides : List Override}
    (hoverrides : outcome (P.overridesOf u) = .ok overrides) :
    (overrides.findM? fun o =>
      if o.decl.owner.isInterface then .ok false
      else outcome (P.slotOf o.decl.definition) >>= fun other => .ok (other.decl == slot.decl)) =
    .ok (overrides.find? fun o =>
      !o.decl.owner.isInterface && P.occupies slot o.decl.definition) := by
  refine findM?_ok fun o ho => ?_
  cases hclass : o.decl.owner.isInterface with
  | true => rfl
  | false => exact (onChain_of_override hP ht hu hoverrides ho hclass).outcome_occupies hP ht

/-- Among methods, the first virtual one of the same name is found that occupies the slot. -/
theorem findM?_methods (slot : Method) (hu : u ∈ P.chain P.walkLimit t) :
    ((P.methods u).findM? fun m =>
      if !m.isVirtual || m.name != slot.name then .ok false
      else outcome (P.slotOf m) >>= fun other => .ok (other.decl == slot.decl)) =
    .ok ((P.methods u).find? fun m =>
      m.isVirtual && m.name == slot.name && P.occupies slot m) := by
  refine findM?_ok fun m hm => ?_
  have hskip : (!m.isVirtual || m.name != slot.name) = !(m.isVirtual && m.name == slot.name) := by
    rw [Bool.not_and]
    rfl
  rw [hskip]
  cases hnamesake : m.isVirtual && m.name == slot.name with
  | true =>
    have hv : m.isVirtual = true := (Bool.and_eq_true_iff.1 hnamesake).1
    exact (onChain_iff.2 ⟨hv, u, hu, hm⟩).outcome_occupies hP ht
  | false => rfl

/-- On a type of the chain, the first candidate that occupies a slot fills it. -/
theorem outcome_slotFiller? (hu : u ∈ P.chain P.walkLimit t) :
    outcome (P.slotFiller? slot u) =
      .ok (((P.candidates slot u).find? fun c => P.occupies slot c.1).map Prod.snd) := by
  obtain ⟨overrides, hoverrides⟩ := ht.settled u hu
  have hoverride := findM?_overrides hP ht slot hu hoverrides
  have hmethod := findM?_methods hP ht slot hu
  unfold slotFiller? candidates
  simp only [outcome_bind, hoverrides, ok_bind, outcome_findM?, outcome_ite, outcome_pure, hoverride,
    List.find?_append, List.find?_map, List.find?_filter, Function.comp_def, Bool.decide_and,
    Bool.decide_eq_true]
  -- methods are asked only if no override is found
  cases overrides.find? fun o =>
      !o.decl.owner.isInterface && P.occupies slot o.decl.definition with
  | some o => rfl
  | none =>
    simp only [outcome_bind, outcome_liftM, value_methodsOf, ok_bind, outcome_findM?, outcome_ite,
      outcome_pure, hmethod, Option.map_none, Option.none_or, Option.map_map]
    simp [Function.comp_def]

/-- What a method leads to is the first candidate of its slot that occupies it. -/
theorem OnChain.outcome_resolve (hm : P.OnChain t m) (hslot : P.HasSlot m slot) :
    outcome (P.resolve m t) = .ok
      ((((P.chain P.walkLimit t).flatMap (P.candidates slot)).find? fun c =>
        P.occupies slot c.1).elim m Prod.snd) := by
  have hfound := hslot.found
  rw [← hm.definition_eq] at hfound
  have hwalk : firstAnswer (fun u => outcome (P.slotFiller? slot u)) (P.chain P.walkLimit t) =
      .ok ((((P.chain P.walkLimit t).flatMap (P.candidates slot)).find? fun c =>
        P.occupies slot c.1).map Prod.snd) := by
    rw [firstAnswer_ok fun u hu => outcome_slotFiller? hP ht hu, List.find?_flatMap,
      List.map_findSome?]
    rfl
  rw [P.outcome_resolve_of_class (ht.classes _ hm.owner), P.outcome_classTarget hm.virtual, hfound,
    ok_bind, hwalk, ok_bind, hm.noArgs]
  cases ((P.chain P.walkLimit t).flatMap (P.candidates slot)).find? fun c =>
    P.occupies slot c.1 <;> rfl

/-- All methods that have a slot lead to the same method.  It comes from the chain, and it fills the slot
if all the searches on the way there come to an end. -/
theorem exists_target (hon : P.OnChain t slot) (hintro : P.IntroducesSlot slot)
    (hends : ∀ c, P.Asked t slot c → P.SearchEnds c.1) :
    ∃ target, (∀ m, P.OnChain t m → P.HasSlot m slot → outcome (P.resolve m t) = .ok target) ∧
      P.Fills t slot target ∧ P.Lands t target := by
  have hself : (slot, slot) ∈ (P.chain P.walkLimit t).flatMap (P.candidates slot) := by
    have hmem : slot ∈ (P.methods slot.owner).filter fun m => m.isVirtual && m.name == slot.name :=
      List.mem_filter.2 ⟨P.mem_methods.2 ⟨hon.declared, rfl, hon.noArgs⟩, by simp [hon.virtual]⟩
    exact List.mem_flatMap.2 ⟨slot.owner, hon.owner,
      List.mem_append_right _ (List.mem_map_of_mem (f := fun m => (m, m)) hmem)⟩
  have hoccupies : P.occupies slot slot = true := by
    rw [(hintro.hasSlot hon.noArgs).occupies_eq, beq_self_eq_true]
  cases hfind : ((P.chain P.walkLimit t).flatMap (P.candidates slot)).find? fun c =>
      P.occupies slot c.1 with
  | none =>
    have hnone := List.find?_eq_none.1 hfind (slot, slot) hself
    exact absurd hoccupies hnone
  | some c =>
    obtain ⟨hc, before, after, hsplit, hbefore⟩ := List.find?_eq_some_iff_append.1 hfind
    have hasked : P.Asked t slot c := ⟨before, after, hsplit, by simpa using hbefore⟩
    obtain ⟨u, hu, hmem⟩ := hasked.exists_mem
    obtain ⟨s, hslot, -⟩ := (hends c hasked).exists_hasSlot hP ht
      (onChain_of_mem_candidates hP ht hu hmem)
    rw [hslot.occupies_eq, beq_iff_eq] at hc
    refine ⟨c.2, fun m hm hslot => ?_, ⟨c.1, s, hasked, hslot, hc⟩, lands_of_mem_candidates hu hmem⟩
    rw [hm.outcome_resolve hP ht hslot, hfind]
    rfl

end Fillers

/-! ## The table -/

/-- The slots of a type are listed without repetition: they are the virtual methods on the chain that
introduce one and are not generic.  Every virtual method on the chain that is not generic has one of
them, and the slot of a slot is the slot itself.  What a call leads to depends only on the slot, fills
it and comes from the chain, if the searches come to an end that the call makes on its way. -/
structure SlotTable (P : Program) (t : Ty) (slots : List Method) : Prop where
  listed : outcome (P.slotsOf t) = .ok slots
  nodup : slots.Nodup
  mem_iff : ∀ s, s ∈ slots ↔ P.OnChain t s ∧ s.arity = 0 ∧ P.IntroducesSlot s
  slot : ∀ m, P.OnChain t m → m.arity = 0 → ∃ s, P.HasSlot m s ∧ P.HasSlot s s ∧
    slots.count s = 1 ∧ ((∀ c, P.Asked t s c → P.SearchEnds c.1) →
      ∃ target, outcome (P.resolve m t) = .ok target ∧ outcome (P.resolve s t) = .ok target ∧
        P.Fills t s target ∧ P.Lands t target)

/-- Whether a method belongs on the list of slots. -/
def ownsSlot (P : Program) (m : Method) : Bool :=
  m.isVirtual && !m.isGenericDefinition && match outcome (P.slotOf m) with
    | .ok s => s == m
    | .error _ => false

section Table

variable {t : Ty} {m s : Method}

/-- A method on the chain is not generic if it has no parameters. -/
theorem OnChain.isGenericDefinition_eq_false_iff (hm : P.OnChain t m) :
    m.isGenericDefinition = false ↔ m.arity = 0 := by
  simp [Method.isGenericDefinition, Method.arity, hm.noArgs]

/-- No slot is listed twice. -/
theorem nodup_slots (ht : P.Regular t) (hnumbered : P.Numbered) :
    ((P.chain P.walkLimit t).reverse.flatMap fun u => (P.methods u).filter P.ownsSlot).Nodup := by
  refine List.nodup_flatMap.2 ⟨fun u _ => (hnumbered.nodup_methods u).filter _, ?_⟩
  refine (List.nodup_reverse.2 ht.ends.nodup_chain).imp fun {u v} hne => ?_
  intro m hu hv
  have hu := (P.mem_methods.1 (List.mem_filter.1 hu).1).2.1
  have hv := (P.mem_methods.1 (List.mem_filter.1 hv).1).2.1
  exact hne (hu.symm.trans hv)

-- Every method that the list asks about has a slot.
variable (hslot : ∀ m, P.OnChain t m → m.arity = 0 →
  ∃ s, P.HasSlot m s ∧ P.OnChain t s ∧ s.arity = m.arity)
include hslot

/-- A method on the chain that is not generic belongs on the list if it introduces a slot. -/
theorem OnChain.ownsSlot_iff (hm : P.OnChain t m) :
    P.ownsSlot m = true ↔ m.arity = 0 ∧ P.IntroducesSlot m := by
  unfold ownsSlot
  rw [Bool.and_eq_true, Bool.and_eq_true, Bool.not_eq_true', hm.isGenericDefinition_eq_false_iff]
  constructor
  · rintro ⟨⟨-, harity⟩, hown⟩
    obtain ⟨s, hs, -⟩ := hslot m hm harity
    rw [hs.found] at hown
    exact ⟨harity, eq_of_beq hown ▸ hs.introduces⟩
  · rintro ⟨harity, hintro⟩
    refine ⟨⟨hm.virtual, harity⟩, ?_⟩
    rw [hintro.slotOf hm.noArgs]
    exact beq_self_eq_true m

/-- The slots of a type are listed from its last base type down, for each type in the order of its
methods. -/
theorem outcome_slotsOf : outcome (P.slotsOf t) =
    .ok ((P.chain P.walkLimit t).reverse.flatMap fun u => (P.methods u).filter P.ownsSlot) := by
  have hmethods : ∀ u ∈ (P.chain P.walkLimit t).reverse, ((P.methods u).filterM fun m =>
      if !m.isVirtual || m.isGenericDefinition then .ok false
      else outcome (P.slotOf m) >>= fun slot => .ok (slot == m)) =
      .ok ((P.methods u).filter P.ownsSlot) := by
    intro u hu
    refine filterM_ok fun m hm => ?_
    split
    · next hskip =>
      have hnot : (m.isVirtual && !m.isGenericDefinition) = false := by
        rw [← Bool.not_eq_true', Bool.not_and, Bool.not_not]
        exact hskip
      rw [ownsSlot, hnot, Bool.false_and]
    · next hlisted =>
      simp only [Bool.or_eq_true, Bool.not_eq_true', not_or, Bool.not_eq_false,
        Bool.not_eq_true] at hlisted
      have hon : P.OnChain t m := onChain_iff.2 ⟨hlisted.1, u, List.mem_reverse.1 hu, hm⟩
      obtain ⟨s, hs, -⟩ := hslot m hon (hon.isGenericDefinition_eq_false_iff.1 hlisted.2)
      rw [ownsSlot, hs.found, hlisted.1, hlisted.2]
      rfl
  unfold slotsOf
  simp only [outcome_bind, outcome_liftM, ok_bind, outcome_mapM, value_baseChain, value_methodsOf,
    outcome_filterM, outcome_pure, outcome_ite]
  rw [mapM_ok hmethods, ok_bind, List.flatMap_def]

/-- On the list there are the methods on the chain that introduce a slot and are not generic. -/
theorem mem_slots_iff :
    s ∈ ((P.chain P.walkLimit t).reverse.flatMap fun u => (P.methods u).filter P.ownsSlot) ↔
      P.OnChain t s ∧ s.arity = 0 ∧ P.IntroducesSlot s := by
  rw [List.mem_flatMap]
  constructor
  · rintro ⟨u, hu, hs⟩
    obtain ⟨hs, hown⟩ := List.mem_filter.1 hs
    have hvirtual : s.isVirtual = true := by
      unfold ownsSlot at hown
      simp only [Bool.and_eq_true] at hown
      exact hown.1.1
    have hon : P.OnChain t s := onChain_iff.2 ⟨hvirtual, u, List.mem_reverse.1 hu, hs⟩
    exact ⟨hon, (hon.ownsSlot_iff hslot).1 hown⟩
  · rintro ⟨hon, hown⟩
    refine ⟨s.owner, List.mem_reverse.2 hon.owner, List.mem_filter.2 ⟨?_, ?_⟩⟩
    · exact P.mem_methods.2 ⟨hon.declared, rfl, hon.noArgs⟩
    · exact (hon.ownsSlot_iff hslot).2 hown

end Table

/-- In a program that is built up by declarations, a regular type has a complete table of slots just if
no methods of one type on its chain that are not generic override one another in a circle.  The search
for the slot of a method on the chain, be it generic or not, comes to an end just if it meets no such
circle. -/
theorem slotTable_complete_iff {t : Ty} (hP : P.Built) (ht : P.Regular t) :
    ((∃ slots, P.SlotTable t slots) ↔ ∀ m, P.OnChain t m → m.arity = 0 → ¬ P.Circles m) ∧
    ∀ m, P.OnChain t m →
      (P.SearchEnds m ↔ ∀ x, ReflTransGen P.GoesOn m x → ¬ P.Circles x) := by
  have hwf := hP.wellFormed
  refine ⟨⟨?_, fun hcircle => ?_⟩, fun m hm => hm.searchEnds_iff hwf ht⟩
  · rintro ⟨slots, htable⟩ m hm harity hcircles
    obtain ⟨s, hs, -⟩ := htable.slot m hm harity
    exact hcircles.not_searchEnds (hs.searchEnds hwf ht hm)
  · have hslot : ∀ m, P.OnChain t m → m.arity = 0 →
        ∃ s, P.HasSlot m s ∧ P.OnChain t s ∧ s.arity = m.arity := by
      intro m hm harity
      refine SearchEnds.exists_hasSlot hwf ht ((hm.searchEnds_iff hwf ht).2 fun x hx => ?_) hm
      obtain ⟨hon, -, hx⟩ := hm.of_reach hwf ht hx
      exact hcircle x hon (hx.trans harity)
    have hnodup := nodup_slots ht hP.numbered
    refine ⟨_, outcome_slotsOf hslot, hnodup, fun s => mem_slots_iff hslot,
      fun m hm harity => ?_⟩
    obtain ⟨s, hs, hon, hsame⟩ := hslot m hm harity
    have hself := hs.introduces.hasSlot hon.noArgs
    refine ⟨s, hs, hself, List.count_eq_one_of_mem hnodup ?_, fun hends => ?_⟩
    · exact (mem_slots_iff hslot).2 ⟨hon, hsame.trans harity, hs.introduces⟩
    · obtain ⟨target, htarget, hfills, hlands⟩ := exists_target hwf ht hon hs.introduces hends
      exact ⟨target, htarget m hm hs, htarget s hon hself, hfills, hlands⟩

end Program

/-! ### Murals

A canvas can be drawn on.  A mural is painted when it is drawn on as a canvas; it also has a way of
drawing of its own, which goes by the same name. -/

/-- A program with a further declaration, about which nothing is said yet. -/
def Program.withDecl (P : Program) (d : TypeDecl) : Program :=
  { P with
    types := P.types.push { decl := d, overrides := .none }
    names := P.names.insert d.fullName }

/-- A type can be declared if its name is new; an interface is declared abstract. -/
theorem Program.define_withDecl {P : Program} {d : TypeDecl} (hid : d.id = P.types.size)
    (hflags : (d.flags.abstract || d.flags.interface) = d.flags.abstract)
    (hname : d.fullName ∉ P.names.toList) :
    P.define d.space d.name d.flags d.arity = .ok (d, P.withDecl d) := by
  have hlookup : ¬(P.lookup? d.fullName).isSome = true := by
    rw [lookup?, P.names.position?_of_not_mem hname]
    exact Bool.false_ne_true
  have hd : { d with id := P.types.size, flags :=
      { d.flags with abstract := d.flags.abstract || d.flags.interface } } = d := by
    rw [hflags, ← hid]
  exact (if_neg hlookup).trans (by rw [hd]; rfl)

namespace Painting

def canvas : TypeDecl := { id := 19, space := "App", name := "Canvas" }

def mural : TypeDecl := { id := 20, space := "App", name := "Mural" }

def draw : MethodDecl := .ofName 0 canvas "Draw" .ofVirtual

def paint : MethodDecl := .ofName 1 mural "Paint" .ofOverride

def sketch : MethodDecl := .ofName 2 mural "Draw" .ofVirtual

def canvases : Program :=
  { Program.initial with
    types := Program.initial.types.push
      { decl := canvas, base := some (some .object), methods := [draw], overrides := .none }
    names := Program.initial.names.insert canvas.fullName
    methodCount := 1 }

def program : Program :=
  { canvases with
    types := canvases.types.push
      { decl := mural, base := some (some (.decl canvas)), methods := [paint, sketch],
        overrides := OverrideList.none.push ⟨draw.method, paint.method⟩ }
    names := canvases.names.insert mural.fullName
    methodCount := 3 }

/-- Declarations lead to the program of canvases. -/
theorem built_canvases : canvases.Built := by
  have hname : canvas.fullName ∉ Program.initial.names.toList := by
    rw [Program.initial, Roster.mem_toList_insertAll]
    decide
  have hcanvas := Program.Built.define .initial (Program.define_withDecl (d := canvas) rfl rfl hname)
  have hbase := @Program.Built.setBase _ _ (.decl canvas) (some .object) hcanvas rfl
  exact @Program.Built.addMethod _ canvases (.decl canvas) "Draw" draw.signature .ofVirtual draw
    hbase rfl

/-- Declarations lead to the program of canvases and murals. -/
theorem built_program : program.Built := by
  have hname : mural.fullName ∉ canvases.names.toList := by
    rw [canvases, Roster.mem_toList_insert, Program.initial, Roster.mem_toList_insertAll]
    decide
  have hmural := Program.Built.define built_canvases
    (Program.define_withDecl (d := mural) rfl rfl hname)
  have hbase := @Program.Built.setBase _ _ (.decl mural) (some (.decl canvas)) hmural rfl
  have hpaint := @Program.Built.addMethod _ _ (.decl mural) "Paint" paint.signature .ofOverride
    paint hbase rfl
  have hsketch := @Program.Built.addMethod _ _ (.decl mural) "Draw" sketch.signature .ofVirtual
    sketch hpaint rfl
  exact @Program.Built.addOverride _ program (fun _ => false) (.decl mural) draw.method paint.method
    hsketch ⟨canvas, rfl, List.mem_singleton_self draw⟩ rfl

/-- A mural is a canvas. -/
theorem chain_mural : program.chain program.walkLimit (.decl mural) =
    [.decl mural, .decl canvas, .object] := rfl

/-- A mural is drawn by painting. -/
theorem overridesOf_mural : outcome (program.overridesOf (.decl mural)) =
    .ok [⟨draw.method, paint.method⟩] := rfl

/-- A mural can be painted and sketched. -/
theorem methods_mural : program.methods (.decl mural) = [paint.method, sketch.method] := rfl

/-- A canvas can be drawn on. -/
theorem methods_canvas : program.methods (.decl canvas) = [draw.method] := rfl

/-- The root of all classes has no methods here. -/
theorem methods_object : program.methods .object = [] := rfl

/-- A mural can have a table of slots. -/
theorem regular_mural : program.Regular (.decl mural) := by
  have hlength : (program.chain program.walkLimit (.decl mural)).length < program.walkLimit := by
    rw [chain_mural]
    decide
  have hcanvas : draw.method.owner ∈ program.chain program.walkLimit (.decl mural) := by
    rw [chain_mural]
    exact List.mem_cons_of_mem _ List.mem_cons_self
  have hoverrides : ∀ u ∈ program.chain program.walkLimit (.decl mural),
      u = .decl mural ∨ outcome (program.overridesOf u) = .ok [] := by
    rw [chain_mural]
    exact List.forall_mem_cons.2 ⟨.inl rfl, List.forall_mem_cons.2 ⟨.inr rfl,
      List.forall_mem_singleton.2 (.inr rfl)⟩⟩
  refine ⟨Program.ends_of_length hlength, ?_, ?_, fun u hu => ?_, fun u hu overrides h => ?_⟩
  · rw [chain_mural]
    exact Nat.le_of_ble_eq_true rfl
  · rw [chain_mural]
    decide
  · rcases hoverrides u hu with rfl | hnone
    · exact ⟨_, overridesOf_mural⟩
    · exact ⟨_, hnone⟩
  · rcases hoverrides u hu with rfl | hnone
    · cases overridesOf_mural.symm.trans h
      exact List.forall_mem_singleton.2 fun _ => ⟨hcanvas, rfl⟩
    · cases hnone.symm.trans h
      exact List.forall_mem_nil _

/-- Drawing introduces a slot. -/
theorem introducesSlot_draw : program.IntroducesSlot draw.method := .inr (.inl rfl)

/-- Painting overrides drawing. -/
theorem overridden?_paint : outcome (program.overridden? paint.method) = .ok (some draw.method) := by
  have hclass : (Ty.decl draw.owner).isInterface = false := rfl
  have howner : paint.method.owner = .decl mural := rfl
  rw [Program.outcome_overridden?, howner, overridesOf_mural, ok_bind]
  simp [hclass]

/-- Painting occupies the slot of drawing. -/
theorem hasSlot_paint : program.HasSlot paint.method draw.method :=
  ⟨introducesSlot_draw.slotOf_overriding rfl rfl rfl overridden?_paint (Nat.succ_pos _),
    introducesSlot_draw⟩

/-- Painting is a virtual method on the chain of murals. -/
theorem onChain_paint : program.OnChain (.decl mural) paint.method := by
  refine Program.onChain_iff.2 ⟨rfl, .decl mural, ?_, ?_⟩
  · rw [chain_mural]
    exact List.mem_cons_self
  · rw [methods_mural]
    exact List.mem_cons_self

/-- All searches end. -/
theorem searchEnds_mural {m : Method} (hm : program.OnChain (.decl mural) m) :
    program.SearchEnds m := by
  obtain ⟨-, u, hu, hm⟩ := Program.onChain_iff.1 hm
  rw [chain_mural] at hu
  simp only [List.mem_cons, List.not_mem_nil, or_false] at hu
  rcases hu with rfl | rfl | rfl
  · rw [methods_mural] at hm
    rcases List.mem_cons.1 hm with rfl | hm
    · exact hasSlot_paint.searchEnds built_program.wellFormed regular_mural onChain_paint
    · rw [List.mem_singleton.1 hm]
      exact ⟨0, .inr ⟨_, rfl, .inr (.inl rfl)⟩⟩
  · rw [methods_canvas] at hm
    rw [List.mem_singleton.1 hm]
    exact ⟨0, .inr ⟨_, rfl, introducesSlot_draw⟩⟩
  · rw [methods_object] at hm
    cases hm

/-- A mural has a table of slots, where drawing as a canvas stands once, though another method has the
same name.  Painting occupies that slot, and a call of either leads to the same method. -/
theorem slotTable_complete_iff_mural :
    (program.Built ∧ program.Regular (.decl mural) ∧
      ∀ m, program.OnChain (.decl mural) m → m.arity = 0 → ¬ program.Circles m) ∧
    ∃ slots, program.SlotTable (.decl mural) slots ∧ slots.count draw.method = 1 ∧
      ∃ target, outcome (program.resolve paint.method (.decl mural)) = .ok target ∧
        outcome (program.resolve draw.method (.decl mural)) = .ok target ∧
        program.Fills (.decl mural) draw.method target := by
  have hcircle : ∀ m, program.OnChain (.decl mural) m → m.arity = 0 → ¬ program.Circles m :=
    fun m hm _ hcircles => hcircles.not_searchEnds (searchEnds_mural hm)
  refine ⟨⟨built_program, regular_mural, hcircle⟩, ?_⟩
  obtain ⟨slots, htable⟩ :=
    (Program.slotTable_complete_iff built_program regular_mural).1.2 hcircle
  obtain ⟨s, hs, -, hcount, hcall⟩ := htable.slot paint.method onChain_paint rfl
  cases hs.found.symm.trans hasSlot_paint.found
  obtain ⟨target, hpaint, hdraw, hfills, -⟩ := hcall fun c hc => by
    obtain ⟨u, hu, hmem⟩ := hc.exists_mem
    exact searchEnds_mural
      (Program.onChain_of_mem_candidates built_program.wellFormed regular_mural hu hmem)
  exact ⟨slots, htable, hcount, target, hpaint, hdraw, hfills⟩

end Painting

end AheadOfTime
