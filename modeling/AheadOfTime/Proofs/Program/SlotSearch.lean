import AheadOfTime.Proofs.NamedOverrides
import AheadOfTime.Proofs.Program.SlotTable
import Mathlib.Order.WellFounded

/-!
# How long the search for a slot takes

The search for the slot of a method goes from a method to one that it overrides.  Where that is said by
names and signatures, it goes to a base type.  An explicit override may say that a method overrides one
of any type, even of its own: then the search strays.

If base types come to an end, a search that strays only finitely often comes to an end too, and one that
never strays takes no more steps than there are base types.  A search that goes on forever strays again
and again, and nothing keeps overrides from being declared that make it do so.
-/

set_option autoImplicit false

namespace AheadOfTime

namespace Program

variable {P : Program} {m next : Method} {n k : Nat} {t u : Ty}

/-- Base types of a type whose chain ends are nearer to the end. -/
theorem Ends.of_mem_properBases (h : P.Ends (n + 1) t) (hu : u ∈ P.properBases t) : P.Ends n u := by
  obtain ⟨b, hb, hu⟩ := P.mem_properBases.1 hu
  cases h with
  | of_base h =>
    have hends := h b hb
    rcases Nat.le_total P.walkLimit n with hle | hle
    · exact (hends.of_mem (P.chain_subset hle b hu)).1
    · rw [hends.chain_eq hle] at hu
      exact (hends.of_mem hu).1

section Order

-- Every type extends one that was declared before.
variable (horder : ∀ p ∈ P.types.toList.zipIdx, ∀ b ∈ p.1.base.join, ∃ d ∈ b.decl?, d.id < p.2)
include horder

/-- If types extend only what was declared before, a type has no more base types than there are
declarations before it. -/
theorem ends_of_decl? {d : TypeDecl} (hd : t.decl? = some d) (hlt : d.id < n) : P.Ends n t := by
  induction n generalizing t d with
  | zero => cases hlt
  | succ n ih =>
    refine .of_base fun b hb => ?_
    obtain ⟨e, he, hlt'⟩ := id_baseType_lt horder hd hb
    exact ih he (by omega)

/-- If types extend only what was declared before, base types come to an end. -/
theorem exists_ends_of_order (t : Ty) : ∃ n, P.Ends n t := by
  cases hd : t.decl? with
  | some d => exact ⟨d.id + 1, ends_of_decl? horder hd (Nat.lt_succ_self _)⟩
  | none =>
    -- the base type of arrays and that of the placeholder are well known
    refine ⟨WellKnown.all.length + 1, .of_base fun b hb => ?_⟩
    unfold baseType at hb
    rw [hd] at hb
    cases t with
    | array e r =>
      cases hb
      exact ends_of_decl? horder rfl (by decide)
    | canon =>
      cases hb
      exact ends_of_decl? horder rfl (by decide)
    | _ => cases hb

end Order

/-! ## Searches that stray -/

/-- A search goes from one method to another, which is not one of a base type. -/
def Strays (P : Program) (m next : Method) : Prop :=
  P.GoesOn m next ∧ next.owner ∉ P.properBases m.owner

/-- Where methods of a type override methods of classes explicitly, those are classes that the type
extends. -/
def OverridesBases (P : Program) (t : Ty) : Prop :=
  ∀ overrides, outcome (P.overridesOf t) = .ok overrides → ∀ o ∈ overrides, o.body.owner = t →
    o.decl.owner.isInterface = false → o.decl.owner ∈ P.properBases t

/-- Only explicit overrides make a search stray. -/
theorem OverridesBases.mem_properBases (h : P.OverridesBases m.owner) (hnext : P.GoesOn m next) :
    next.owner ∈ P.properBases m.owner := by
  rcases exists_of_overridden? hnext.next with ⟨overrides, hoverrides, o, ho, rfl, hclass, rfl⟩ |
      ⟨base, hbase, hmem, -⟩
  · exact h overrides hoverrides o ho rfl hclass
  · exact P.mem_properBases.2 ⟨base, hbase, hmem⟩

/-- Searches stay among the methods of a program. -/
theorem Coherent.goesOn (hP : P.Coherent) (hm : P.HasMethod m) (h : P.GoesOn m next) :
    P.HasMethod next :=
  hP.covers.answers.overridden? hm _ h.next next rfl

/-- Where explicit overrides are of methods of base types, a search takes no more steps than there are
base types. -/
theorem Coherent.searchEndsIn (hP : P.Coherent) (hbases : ∀ t, P.HasType t → P.OverridesBases t)
    (hm : P.HasMethod m) (hends : P.Ends n m.owner) : P.SearchEndsIn n m := by
  induction n generalizing m with
  | zero => cases hends
  | succ n ih =>
    rcases P.introducesSlot_or_goesOn m with hintro | ⟨e, herror⟩ | ⟨next, hnext⟩
    · exact .inr ⟨m, hintro.slotFrom _, hintro⟩
    · exact .inl ⟨e, herror n⟩
    · have hmem := (hbases m.owner hm.owner).mem_properBases hnext
      exact hnext.searchEndsIn_succ.2 (ih (hP.goesOn hm hnext) (hends.of_mem_properBases hmem))

section Walk

-- A search that goes on forever.
variable {walk : Nat → Method} (hwalk : ∀ i, P.GoesOn (walk i) (walk (i + 1)))
include hwalk

/-- A search that goes on forever stays within the methods of the program. -/
theorem Coherent.hasMethod_walk (hP : P.Coherent) (hm : P.HasMethod (walk 0)) (i : Nat) :
    P.HasMethod (walk i) := by
  induction i with
  | zero => exact hm
  | succ i ih => exact hP.goesOn ih (hwalk i)

/-- From no type whose base types come to an end can it go on without straying. -/
theorem Ends.exists_strays {i : Nat} (h : P.Ends n (walk i).owner) :
    ∃ j, i ≤ j ∧ P.Strays (walk j) (walk (j + 1)) := by
  induction n generalizing i with
  | zero => cases h
  | succ n ih =>
    by_cases hmem : (walk (i + 1)).owner ∈ P.properBases (walk i).owner
    · obtain ⟨j, hle, hstrays⟩ := ih (h.of_mem_properBases hmem)
      exact ⟨j, by omega, hstrays⟩
    · exact ⟨i, Nat.le_refl i, hwalk i, hmem⟩

end Walk

end Program

/-- If base types come to an end, the search for the slot of a method comes to an end unless it strays
again and again.  If explicit overrides are of methods of base types, it takes no more steps than there
are base types.  Where it is at an end, what it came to is the slot of the method, unless it took too
many steps. -/
theorem World.slotSearch_ends_iff {w : World} (hw : w.Reachable)
    (hchains : ∀ t, w.program.HasType t → ∃ n, w.program.Ends n t) {m : Method}
    (hm : w.program.HasMethod m) :
    (w.program.SearchEnds m.definition ↔ ¬ ∃ walk : Nat → Method, walk 0 = m.definition ∧
      (∀ i, w.program.GoesOn (walk i) (walk (i + 1))) ∧
      ∀ i, ∃ j, i ≤ j ∧ w.program.Strays (walk j) (walk (j + 1))) ∧
    ((∀ t, w.program.HasType t → w.program.OverridesBases t) →
      ∀ n, w.program.Ends n m.owner → w.program.SearchEndsIn n m.definition) ∧
    ∀ n, n ≤ w.program.walkLimit → w.program.SearchEndsIn n m.definition →
      (w.attempt (w.program.slotOf m)).1 =
        outcome (w.program.slotFrom n m.definition) >>= fun slot => .ok (slot.withArgs m.args) := by
  have hP := hw.sound.program
  have hdefinition := hP.covers.definition hm
  refine ⟨?_, fun hbases n hends => hP.searchEndsIn hbases hdefinition hends, fun n hle h => ?_⟩
  · rw [Program.searchEnds_iff_acc, ← not_iff_not, not_not, not_acc_iff_exists_descending_chain]
    constructor
    · rintro ⟨walk, hstart, hwalk⟩
      refine ⟨walk, hstart, hwalk, fun i => ?_⟩
      rw [← hstart] at hdefinition
      obtain ⟨n, hends⟩ := hchains _ (hP.hasMethod_walk hwalk hdefinition i).owner
      exact hends.exists_strays hwalk
    · rintro ⟨walk, hstart, hwalk, -⟩
      exact ⟨walk, hstart, hwalk⟩
  · rw [fst_attempt, Program.outcome_slotOf, h.slotFrom_eq hle]

/-! ### Watches

Watches are clocks, and their beat is how they tick.  Winding them up and unwinding them are methods
that may be said to override each other. -/

namespace Watches

def clock : TypeDecl := { id := 19, space := "App", name := "Clock" }

def watch : TypeDecl := { id := 20, space := "App", name := "Watch" }

def tick : MethodDecl := .ofName 0 clock "Tick" .ofVirtual

def beat : MethodDecl := .ofName 1 watch "Beat" .ofOverride

def wind : MethodDecl := .ofName 2 watch "Wind" .ofOverride

def unwind : MethodDecl := .ofName 3 watch "Unwind" .ofOverride

/-- Both types with their methods. -/
def clocks : Program :=
  { Program.initial with
    types := (Program.initial.types.push { decl := clock, methods := [tick], overrides := .none }).push
      { decl := watch, base := some (some (.decl clock)), methods := [beat, wind, unwind],
        overrides := .none }
    names := (Program.initial.names.insert clock.fullName).insert watch.fullName
    methodCount := 4 }

/-- Watches with explicit overrides. -/
def program (overrides : List Override) : Program :=
  overrides.foldl (·.withOverride watch ·) clocks

/-- A watch ticks by its beat. -/
def ticking : List Override :=
  [⟨tick.method, beat.method⟩]

/-- To wind a watch up is to unwind it, and the other way round. -/
def winding : List Override :=
  [⟨wind.method, unwind.method⟩, ⟨unwind.method, wind.method⟩]

/-- The program of clocks and watches comes about by declarations, before anything is asked. -/
theorem unasked_clocks : clocks.Unasked := by
  have hclock : clock.fullName ∉ Program.initial.names.toList := by
    rw [Program.initial, Roster.mem_toList_insertAll]
    decide
  have hwatch : watch.fullName ∉ (Program.initial.names.insert clock.fullName).toList := by
    rw [Roster.mem_toList_insert, Program.initial, Roster.mem_toList_insertAll]
    decide
  have hclock := @Program.Unasked.withDecl _ .initial clock rfl rfl hclock
  have htick := @Program.Unasked.addMethod_ofName _ _ hclock 0 clock "Tick" .ofVirtual
    (Program.hasDecl_of_getElem? (i := 19) rfl) rfl
  have hwatch := @Program.Unasked.withDecl _ htick watch rfl rfl hwatch
  have hbase := @Program.Unasked.setBase _ _ hwatch (.decl watch) (some (.decl clock))
    (Program.hasDecl_of_getElem? (i := 20) rfl)
    (fun b hb => by cases hb; exact Program.hasDecl_of_getElem? (i := 19) rfl) rfl
  have hbeat := @Program.Unasked.addMethod_ofName _ _ hbase 1 watch "Beat" .ofOverride
    (Program.hasDecl_of_getElem? (i := 20) rfl) rfl
  have hwind := @Program.Unasked.addMethod_ofName _ _ hbeat 2 watch "Wind" .ofOverride
    (Program.hasDecl_of_getElem? (i := 20) rfl) rfl
  exact @Program.Unasked.addMethod_ofName _ clocks hwind 3 watch "Unwind" .ofOverride
    (Program.hasDecl_of_getElem? (i := 20) rfl) rfl

/-- The methods of clocks and watches are virtual methods of the program. -/
theorem hasMethod_clocks : ∀ m ∈ [tick, beat, wind, unwind],
    clocks.HasMethod m.method ∧ m.method.isVirtual = true := by
  have hwatch : clocks.HasDecl watch := Program.hasDecl_of_getElem? (i := 20) rfl
  refine List.forall_mem_cons.2 ⟨⟨⟨⟨clock, rfl, .head _⟩, ?_, List.forall_mem_nil _⟩, rfl⟩, ?_⟩
  · exact Program.hasDecl_of_getElem? (i := 19) rfl
  · intro m hm
    have howner : m.owner = watch ∧ m.method.isVirtual = true := by
      simp only [List.mem_cons, List.not_mem_nil, or_false] at hm
      rcases hm with rfl | rfl | rfl <;> exact ⟨rfl, rfl⟩
    obtain ⟨howner, hvirtual⟩ := howner
    rw [← howner] at hwatch
    refine ⟨⟨⟨m.owner, rfl, ?_⟩, hwatch, List.forall_mem_nil _⟩, hvirtual⟩
    rw [howner]
    exact hm

/-- Whatever overrides each other, some world has these watches. -/
theorem exists_reachable {overrides : List Override}
    (h : ∀ o ∈ overrides, ∀ m ∈ o.methods, m ∈ [tick, beat, wind, unwind].map MethodDecl.method) :
    ∃ w : World, w.Reachable ∧ w.program = program overrides ∧
      ∀ m ∈ [tick, beat, wind, unwind], w.program.HasMethod m.method := by
  have hmethods : ∀ m ∈ [tick, beat, wind, unwind].map MethodDecl.method,
      clocks.HasMethod m ∧ m.isVirtual = true := List.forall_mem_map.2 hasMethod_clocks
  obtain ⟨hunasked, hext⟩ := unasked_clocks.withOverrides
    (Program.hasDecl_of_getElem? (i := 20) rfl) fun o ho m hm => hmethods m (h o ho m hm)
  obtain ⟨c, hreach, -⟩ := hunasked
  exact ⟨_, hreach, rfl, fun m hm => hext.hasMethod (hasMethod_clocks m hm).1⟩

/-- There are watches and clocks, and that is all. -/
theorem ends_watch : (program ticking).Ends 2 (.decl watch) := by
  refine .of_base fun b hb => ?_
  cases hb
  refine .of_base fun b hb => ?_
  cases hb

/-- The only explicit override says that a watch ticks by its beat. -/
theorem declared_ticking (d : TypeDecl) :
    ∀ o ∈ ((program ticking).record d).overrides.declared, o ∈ ticking := by
  have htypes : (program ticking).types.toList = Program.initial.types.toList ++
    [(program ticking).record clock, (program ticking).record watch] := rfl
  intro o ho
  rcases Program.record_mem_or_eq (P := program ticking) d with hr | hr
  · rw [htypes, List.mem_append] at hr
    rcases hr with hr | hr
    · -- nothing is said about the well-known types
      obtain ⟨k, -, hk⟩ := List.mem_map.1 hr
      rw [← hk] at ho
      cases ho
    · simp only [List.mem_cons, List.not_mem_nil, or_false] at hr
      rcases hr with hr | hr <;> rw [hr] at ho
      · cases ho
      · exact ho
  · rw [hr] at ho
    cases ho

/-- The one override is of a method of clocks. -/
theorem overridesBases_ticking (t : Ty) : (program ticking).OverridesBases t := by
  have hbases : (program ticking).properBases (.decl watch) = [.decl clock] := rfl
  intro overrides h o ho howner _
  obtain ⟨d, -, o', ho', rfl⟩ := (program ticking).exists_declared_of_overridesOf h ho
  rw [List.mem_singleton.1 (declared_ticking d o' ho')] at howner ⊢
  have howner : Ty.decl watch = t := howner
  rw [← howner, hbases]
  exact List.mem_singleton_self _

/-- The search for the slot of the beat of a watch is at an end after at most two steps, as there are
watches and clocks, and it does not stray again and again. -/
theorem slotSearch_ends_iff_beat : ∃ w : World,
    (w.Reachable ∧ (∀ t, w.program.HasType t → ∃ n, w.program.Ends n t) ∧
      w.program.HasMethod beat.method ∧
      ∀ t, w.program.HasType t → w.program.OverridesBases t) ∧
    w.program.SearchEndsIn 2 beat.method ∧
    ¬ ∃ walk : Nat → Method, walk 0 = beat.method ∧
      (∀ i, w.program.GoesOn (walk i) (walk (i + 1))) ∧
      ∀ i, ∃ j, i ≤ j ∧ w.program.Strays (walk j) (walk (j + 1)) := by
  obtain ⟨w, hreach, hprogram, hmethods⟩ :=
    @exists_reachable ticking (by simp [ticking, Override.methods])
  have hchains : ∀ t, w.program.HasType t → ∃ n, w.program.Ends n t := fun t _ => by
    rw [hprogram]
    exact Program.exists_ends_of_order (by decide) t
  have hbases : ∀ t, w.program.HasType t → w.program.OverridesBases t := fun t _ => by
    rw [hprogram]
    exact overridesBases_ticking t
  have hbeat := hmethods beat (.tail _ (.head _))
  obtain ⟨hiff, hends, -⟩ := World.slotSearch_ends_iff hreach hchains hbeat
  have hwatch : w.program.Ends 2 beat.method.owner := by
    rw [hprogram]
    exact ends_watch
  have hsearch := hends hbases 2 hwatch
  exact ⟨w, ⟨hreach, hchains, hbeat, hbases⟩, hsearch, hiff.1 ⟨2, hsearch⟩⟩

/-! ### Watches that are wound up forever -/

/-- The explicit overrides of winding watches can be settled. -/
theorem overridesOf_winding : outcome ((program winding).overridesOf (.decl watch)) = .ok winding := by
  have hne : wind ≠ unwind := by simp [wind, unwind, MethodDecl.ofName]
  have hnodup : (winding.map Override.decl).Nodup := by
    simp [winding, MethodDecl.method, hne]
  have hdeclared : ((program winding).record watch).overrides.declared = winding := rfl
  rw [Program.outcome_overridesOf_of_decl? (d := watch) rfl,
    ((program winding).record watch).overrides.sound, hdeclared, Override.settle_of_nodup hnodup]
  rfl

/-- The search goes from one to the other and back. -/
theorem goesOn_winding : (program winding).GoesOn wind.method unwind.method ∧
    (program winding).GoesOn unwind.method wind.method := by
  have hne : unwind ≠ wind := by simp [wind, unwind, MethodDecl.ofName]
  have hunwind : (Ty.decl unwind.owner).isInterface = false := rfl
  have hwind : (Ty.decl wind.owner).isInterface = false := rfl
  have howner : wind.method.owner = .decl watch ∧ unwind.method.owner = .decl watch := ⟨rfl, rfl⟩
  refine ⟨⟨rfl, rfl, ?_⟩, rfl, rfl, ?_⟩
  · rw [Program.outcome_overridden?, howner.1, overridesOf_winding, ok_bind]
    simp [winding, hne, hunwind]
  · rw [Program.outcome_overridden?, howner.2, overridesOf_winding, ok_bind]
    simp [winding, hwind]

/-- Nothing but going there and back comes of winding a watch up. -/
theorem not_searchEnds_wind : ¬ (program winding).SearchEnds wind.method := by
  obtain ⟨hunwind, hwind⟩ := goesOn_winding
  exact Program.not_searchEnds_of_circle (.tail (.single hunwind) hwind)

/-- Though base types come to an end, the search for the slot of winding up a watch does not. -/
theorem exists_not_searchEnds : ∃ w : World, w.Reachable ∧
    (∀ t, w.program.HasType t → ∃ n, w.program.Ends n t) ∧
    w.program.HasMethod wind.method ∧ ¬ w.program.SearchEnds wind.method.definition := by
  obtain ⟨w, hreach, hprogram, hmethods⟩ :=
    @exists_reachable winding (by simp [winding, Override.methods])
  have hchains : ∀ t, w.program.HasType t → ∃ n, w.program.Ends n t := fun t _ => by
    rw [hprogram]
    exact Program.exists_ends_of_order (by decide) t
  refine ⟨w, hreach, hchains, hmethods wind (.tail _ (.tail _ (.head _))), ?_⟩
  rw [hprogram]
  exact not_searchEnds_wind

/-! ### Watches without a table of slots -/

/-- A watch is a clock, and nothing else. -/
theorem chain_winding : (program winding).chain (program winding).walkLimit (.decl watch) =
    [.decl watch, .decl clock] := rfl

/-- Watches have overrides that are not in conflict, and each is of a method of watches. -/
theorem regular_winding : (program winding).Regular (.decl watch) := by
  have hlength : ((program winding).chain (program winding).walkLimit (.decl watch)).length <
      (program winding).walkLimit := by
    rw [chain_winding]
    decide
  have hends := Program.ends_of_length hlength
  have hoverrides : ∀ u ∈ (program winding).chain (program winding).walkLimit (.decl watch),
      u = .decl watch ∨ outcome ((program winding).overridesOf u) = .ok [] := by
    rw [chain_winding]
    exact List.forall_mem_cons.2 ⟨.inl rfl, List.forall_mem_singleton.2 (.inr rfl)⟩
  refine ⟨hends, ?_, ?_, fun u hu => ?_, fun u hu overrides h => ?_⟩
  · rw [chain_winding]
    exact Nat.le_of_ble_eq_true rfl
  · rw [chain_winding]
    decide
  · rcases hoverrides u hu with rfl | hnone
    · exact ⟨_, overridesOf_winding⟩
    · exact ⟨_, hnone⟩
  · rcases hoverrides u hu with rfl | hnone
    · cases overridesOf_winding.symm.trans h
      exact List.forall_mem_cons.2 ⟨fun _ => ⟨hends.mem_chain_self, rfl⟩,
        List.forall_mem_singleton.2 fun _ => ⟨hends.mem_chain_self, rfl⟩⟩
    · cases hnone.symm.trans h
      exact List.forall_mem_nil _

/-- Winding is a virtual method on the chain of watches. -/
theorem onChain_wind : (program winding).OnChain (.decl watch) wind.method := by
  have hmethods : (program winding).methods (.decl watch) =
      [beat.method, wind.method, unwind.method] := rfl
  refine Program.onChain_iff.2 ⟨rfl, .decl watch, regular_winding.ends.mem_chain_self, ?_⟩
  rw [hmethods]
  exact .tail _ (.head _)

/-- Though watches are regular and winding them up is not generic, they have no table of slots: the
search for the slot of winding them up never comes to an end, and so neither does the list. -/
theorem exists_regular_without_slotTable : ∃ w : World, w.Reachable ∧
    w.program.Built ∧ w.program.Regular (.decl watch) ∧
    w.program.OnChain (.decl watch) wind.method ∧ wind.method.arity = 0 ∧
    ¬ w.program.SearchEnds wind.method ∧ ∀ slots, ¬ w.program.SlotTable (.decl watch) slots := by
  obtain ⟨w, hreach, hprogram, -⟩ :=
    @exists_reachable winding (by simp [winding, Override.methods])
  have hbuilt := hreach.built
  rw [hprogram] at hbuilt
  refine ⟨w, hreach, ?_⟩
  rw [hprogram]
  refine ⟨hbuilt, regular_winding, onChain_wind, rfl, not_searchEnds_wind, fun slots htable => ?_⟩
  obtain ⟨s, hs, -⟩ := htable.slot wind.method onChain_wind rfl
  exact not_searchEnds_wind (hs.searchEnds hbuilt.wellFormed regular_winding onChain_wind)

end Watches

end AheadOfTime
