import AheadOfTime.Proofs.Closing
import AheadOfTime.Proofs.Override
import AheadOfTime.Proofs.Substitution

/-!
# Overrides by name

The overrides of a type can be asked for all at once, or only those of methods with a given name.  If
all of them can be settled the two agree: by name one gets what all of them have of that name, in the
same order and under the same handles, on generic types and on their instantiations, and no matter
which was asked for first.

If some of them clash, asking for all fails, and that closes them.  From then on asking by name fails
too, whatever the name.  Before, it fails only for names among whose own overrides some clash.
-/

set_option autoImplicit false

namespace AheadOfTime

/-! ## What is answered -/

namespace Override

/-- An override, seen through the arguments of an instantiation. -/
def through (args : List Ty) (o : Override) : Override :=
  ⟨o.decl.subst { ofType := args }, o.body.subst { ofType := args }⟩

/-- The overrides of methods with a given name. -/
def named (name : String) (l : List Override) : List Override :=
  l.filter (·.decl.name == name)

/-- The methods that an override speaks of. -/
def methods (o : Override) : List Method :=
  [o.decl, o.body]

/-- Settled overrides, as they are seen on a type. -/
def seenOn (t : Ty) (settled : Except Fault (List Override)) : Except Diagnostic (List Override) :=
  (settled.map (List.map (through t.args))).mapError Fault.report

/-- A type has no overrides to show exactly if they cannot be settled. -/
theorem toOption_seenOn_eq_none {t : Ty} {settled : Except Fault (List Override)} :
    (seenOn t settled).toOption = none ↔ ¬ ∃ r, settled = .ok r := by
  cases settled with
  | ok r => exact ⟨nofun, fun h => absurd ⟨r, rfl⟩ h⟩
  | error f => exact ⟨fun _ => nofun, fun _ => rfl⟩

/-- Without arguments, an override is seen as it was declared. -/
theorem through_nil (o : Override) : o.through [] = o := by
  rw [through, Method.subst_empty, Method.subst_empty]

/-- Whatever the arguments are, methods keep their names. -/
theorem named_map_through (name : String) (args : List Ty) (l : List Override) :
    named name (l.map (through args)) = (named name l).map (through args) :=
  List.filter_map

/-- If overrides can be settled, those of one name are settled in the same way. -/
theorem settle_named {l r : List Override} (name : String) (h : settle l = .ok r) :
    settle (named name l) = .ok (named name r) :=
  settle_filter (fun m => m.name == name) h

end Override

namespace Program

variable {P : Program} {t : Ty} {d : TypeDecl}

/-- Overrides are seen through the arguments one by one. -/
theorem value_instantiateOverrides (args : List Ty) (l : List Override) :
    (instantiateOverrides args l).value = l.map (Override.through args) := by
  unfold instantiateOverrides
  split
  · next hargs =>
    rw [List.isEmpty_iff.1 hargs, Recorded.value_pure]
    exact (List.map_id'' Override.through_nil l).symm
  · rw [Recorded.value_mapM]
    simp only [Override.needThrough, Recorded.value_bind, value_needMethod, Recorded.value_pure]
    rfl

/-- The overrides of a type are the settled ones of its declaration, seen through its arguments. -/
theorem outcome_overridesOf_of_decl? (hd : t.decl? = some d) :
    outcome (P.overridesOf t) = Override.seenOn t (P.record d).overrides.settled := by
  unfold overridesOf
  rw [hd]
  simp only [outcome_bind, outcome_liftM, ok_bind]
  cases (P.record d).overrides.settled with
  | ok settled => exact congrArg Except.ok (value_instantiateOverrides t.args settled)
  | error fault => rfl

/-- The overrides of one name are settled by themselves, unless all overrides of the type are
closed; then they are picked from the settled ones. -/
theorem outcome_overridesNamed_of_decl? (hd : t.decl? = some d) (isClosed : TypeDecl → Bool)
    (name : String) : outcome (P.overridesNamed isClosed t name) = Override.seenOn t
      (if isClosed d then (P.record d).overrides.settled.map (Override.named name)
        else Override.settle (Override.named name (P.record d).overrides.declared)) := by
  unfold overridesNamed
  rw [hd]
  dsimp only
  unfold Override.named
  split
  · next settled hsettled =>
    rw [hsettled]
    exact congrArg Except.ok (value_instantiateOverrides t.args settled)
  · next fault hfault =>
    rw [hfault]
    rfl

/-- If all overrides of a type can be settled, those by name are among them, closed or not. -/
theorem outcome_overridesNamed_of_overridesOf {l : List Override}
    (h : outcome (P.overridesOf t) = .ok l) (isClosed : TypeDecl → Bool) (name : String) :
    outcome (P.overridesNamed isClosed t name) = .ok (Override.named name l) := by
  cases hd : t.decl? with
  | none =>
    unfold overridesOf at h
    unfold overridesNamed
    rw [hd] at h ⊢
    cases h
    rfl
  | some d =>
    rw [outcome_overridesOf_of_decl? hd] at h
    rw [outcome_overridesNamed_of_decl? hd]
    cases hsettled : (P.record d).overrides.settled with
    | error fault =>
      rw [hsettled] at h
      cases h
    | ok settled =>
      rw [hsettled] at h
      cases h
      have hnamed := Override.settle_named name ((P.record d).overrides.sound.symm.trans hsettled)
      rw [Override.named_map_through]
      split
      · rfl
      · rw [hnamed]
        rfl

/-- Where there is an answer for all overrides, they are closed and then seen on the type. -/
theorem exists_overridesOf_eq {l : List Override} (hd : t.decl? = some d)
    (h : outcome (P.overridesOf t) = .ok l) :
    ∃ settled, (∀ o ∈ settled, o ∈ (P.record d).overrides.declared) ∧
      l = settled.map (Override.through t.args) ∧
      P.overridesOf t = (do needOverrides d; instantiateOverrides t.args settled) := by
  rw [outcome_overridesOf_of_decl? hd] at h
  cases hsettled : (P.record d).overrides.settled with
  | error fault =>
    rw [hsettled] at h
    cases h
  | ok settled =>
    rw [hsettled] at h
    cases h
    refine ⟨settled, fun o => (P.record d).overrides.mem_declared_of_settled hsettled, rfl, ?_⟩
    unfold overridesOf
    rw [hd]
    dsimp only
    rw [hsettled]

/-- Where there is an answer by name, nothing happens but that overrides are seen on the type. -/
theorem exists_overridesNamed_eq {l : List Override} {isClosed : TypeDecl → Bool} {name : String}
    (hd : t.decl? = some d) (h : outcome (P.overridesNamed isClosed t name) = .ok l) :
    ∃ settled, (∀ o ∈ settled, o ∈ (P.record d).overrides.declared) ∧
      l = settled.map (Override.through t.args) ∧
      P.overridesNamed isClosed t name = liftM (instantiateOverrides t.args settled) := by
  rw [outcome_overridesNamed_of_decl? hd] at h
  cases hsettled : (if isClosed d then (P.record d).overrides.settled.map (Override.named name)
      else Override.settle (Override.named name (P.record d).overrides.declared)) with
  | error fault =>
    rw [hsettled] at h
    cases h
  | ok settled =>
    rw [hsettled] at h
    cases h
    refine ⟨settled, fun o => (P.record d).overrides.mem_declared_of_filter hsettled, rfl, ?_⟩
    unfold overridesNamed
    rw [hd]
    dsimp only
    unfold Override.named at hsettled
    rw [hsettled]

end Program

/-! ## What is listed -/

namespace Catalog

variable {V : Vocabulary} {c : Catalog} {args : List Ty} {l : List Override}

/-- The methods of overrides are listed one after the other. -/
theorem Sound.mapM_needThrough (hV : V.Listable) (h : c.Sound V)
    (hlisted : ∀ o ∈ l, ∀ m ∈ o.methods, m ∈ c.methods.toList)
    (hmethod : ∀ o ∈ l, ∀ m ∈ o.methods, V.method (m.subst { ofType := args })) :
    c.Grown V ((l.mapM (Override.needThrough args)).run c).2 ∧
    ∀ o ∈ l, ∀ m ∈ (o.through args).methods,
      m ∈ ((l.mapM (Override.needThrough args)).run c).2.methods.toList := by
  induction l generalizing c with
  | nil => exact ⟨h.grown, List.forall_mem_nil _⟩
  | cons o l ih =>
    obtain ⟨ho, hl⟩ := List.forall_mem_cons.1 hlisted
    obtain ⟨hmethods, hl'⟩ := List.forall_mem_cons.1 hmethod
    obtain ⟨hdecl, hbody⟩ := List.forall_mem_cons.1 hmethods
    have hbody := hbody o.body (List.mem_singleton_self _)
    obtain ⟨hdeclListed, hbodyListed⟩ := List.forall_mem_cons.1 ho
    have hbodyListed := hbodyListed o.body (List.mem_singleton_self _)
    -- the catalog after the first method, after the second one, and after the rest
    have hfirst := h.run hV (.needMethod hdecl)
    have hsecond := hfirst.sound.run hV (.needMethod hbody)
    have hgrown := hfirst.trans hsecond
    obtain ⟨hrest, hmems⟩ := ih hgrown.sound
      (fun o' ho' m hm => hgrown.kept.methods.subset (hl o' ho' m hm)) hl'
    have hmem := h.mem_methodNeedSubst hV hdeclListed hdecl
    have hmem' := hfirst.sound.mem_methodNeedSubst hV
      (hfirst.kept.methods.subset hbodyListed) hbody
    rw [List.mapM_cons]
    simp only [Recorded.run_bind, Recorded.run_pure]
    refine ⟨hgrown.trans hrest, List.forall_mem_cons.2 ⟨List.forall_mem_cons.2
      ⟨?_, List.forall_mem_singleton.2 ?_⟩, hmems⟩⟩
    · exact hrest.kept.methods.subset (hsecond.kept.methods.subset hmem)
    · exact hrest.kept.methods.subset hmem'

/-- After overrides were seen through arguments, what they then speak of is listed, if what they spoke
of before is. -/
theorem Sound.mem_instantiateOverrides (hV : V.Listable) (h : c.Sound V)
    (hlisted : ∀ o ∈ l, ∀ m ∈ o.methods, m ∈ c.methods.toList)
    (hmethod : ∀ o ∈ l, ∀ m ∈ o.methods, V.method (m.subst { ofType := args })) :
    ∀ o ∈ l.map (Override.through args), ∀ m ∈ o.methods,
      m ∈ ((Program.instantiateOverrides args l).run c).2.methods.toList := by
  unfold Program.instantiateOverrides
  split
  · next hargs =>
    rw [List.isEmpty_iff.1 hargs, List.map_id'' Override.through_nil l]
    exact hlisted
  · exact List.forall_mem_map.2 (h.mapM_needThrough hV hlisted hmethod).2

end Catalog

/-! ## Worlds -/

namespace World

variable {w w' : World} {t : Ty} {d : TypeDecl} {l : List Override}

/-- What an attempt gives does not depend on the world in which it is made. -/
theorem fst_attempt {α : Type} (w : World) (q : Attempt α) : (w.attempt q).1 = outcome q :=
  w.answer_eq_value q.run

/-- What the overrides of a type speak of is listed, as it is if they were declared by handles. -/
def ListsOverrides (w : World) (t : Ty) : Prop :=
  ∀ d, t.decl? = some d → ∀ o ∈ (w.program.record d).overrides.declared,
    ∀ m ∈ o.methods, m ∈ w.catalog.methods.toList

/-- From some time on a method has a handle, and it is always the same. -/
def HasHandle (w : World) (m : Method) : Prop :=
  ∃ h, w.methodHandle? m = some h ∧ ∀ w', w.Steps w' → w'.methodHandle? m = some h

/-- In a sound world, every listed method has a handle. -/
theorem Sound.hasHandle (hw : w.Sound) {m : Method} (hm : m ∈ w.catalog.methods.toList) :
    w.HasHandle m :=
  ⟨_, Roster.handle?_of_mem .method hm, fun _ hsteps =>
    methodHandle?_of_extends (hw.steps hsteps).2 m _ (Roster.handle?_of_mem .method hm)⟩

/-- Some of the overrides of a type, seen on the type, speak of what is listed then. -/
theorem Sound.mem_through (hw : w.Sound) (ht : w.program.HasType t) (hlists : w.ListsOverrides t)
    (hd : t.decl? = some d) (hl : ∀ o ∈ l, o ∈ (w.program.record d).overrides.declared)
    {c : Catalog} (hc : c.Sound ⟨w.program.HasType, w.program.HasMethod⟩)
    (hmethods : c.methods = w.catalog.methods) :
    ∀ o ∈ l.map (Override.through t.args), ∀ m ∈ o.methods,
      m ∈ ((Program.instantiateOverrides t.args l).run c).2.methods.toList := by
  have hlisted : ∀ o ∈ l, ∀ m ∈ o.methods, m ∈ w.catalog.methods.toList :=
    fun o ho => hlists d hd o (hl o ho)
  have hσ : Vocabulary.Binds ⟨w.program.HasType, w.program.HasMethod⟩ { ofType := t.args } :=
    Bindings.forall_args (hw.program.covers.typeArgs ht) (List.forall_mem_nil _)
  refine hc.mem_instantiateOverrides hw.program.listable (by rwa [hmethods]) fun o ho m hm => ?_
  exact hw.program.covers.methodSubst (hw.catalog.method m (hlisted o ho m hm)) hσ

/-- After all overrides of a type were asked for, their methods have handles. -/
theorem Sound.hasHandle_overridesOf (hw : w.Sound) (ht : w.program.HasType t)
    (hlists : w.ListsOverrides t) (h : (w.attempt (w.program.overridesOf t)).1 = .ok l) :
    ∀ o ∈ l, ∀ m ∈ o.methods, (w.attempt (w.program.overridesOf t)).2.HasHandle m := by
  have hsound := (hw.ask (hw.program.covers.tries_overridesOf ht)).1
  suffices hlisted : ∀ o ∈ l, ∀ m ∈ o.methods,
      m ∈ ((w.program.overridesOf t).run.run w.catalog).2.methods.toList from
    fun o ho m hm => hsound.hasHandle (hlisted o ho m hm)
  rw [fst_attempt] at h
  cases hd : t.decl? with
  | none =>
    unfold Program.overridesOf at h
    rw [hd] at h
    cases h
    exact List.forall_mem_nil _
  | some d =>
    obtain ⟨settled, hdeclared, rfl, heq⟩ := Program.exists_overridesOf_eq hd h
    have hclosed := hw.catalog.add (e := .overrides d) hw.program.listable trivial
    have hmethods : (w.catalog.close d).methods = w.catalog.methods := by
      unfold Catalog.close
      split <;> rfl
    rw [heq]
    exact hw.mem_through ht hlists hd hdeclared hclosed.sound hmethods

/-- After the overrides of one name were asked for, their methods have handles. -/
theorem Sound.hasHandle_overridesNamed (hw : w.Sound) (ht : w.program.HasType t)
    (hlists : w.ListsOverrides t) {name : String}
    (h : (w.attempt (w.overridesNamed t name)).1 = .ok l) :
    ∀ o ∈ l, ∀ m ∈ o.methods, (w.attempt (w.overridesNamed t name)).2.HasHandle m := by
  have hsound := (hw.ask (hw.program.covers.tries_overridesNamed ht w.catalog.isClosed name)).1
  suffices hlisted : ∀ o ∈ l, ∀ m ∈ o.methods,
      m ∈ ((w.overridesNamed t name).run.run w.catalog).2.methods.toList from
    fun o ho m hm => hsound.hasHandle (hlisted o ho m hm)
  rw [fst_attempt] at h
  unfold overridesNamed at h ⊢
  cases hd : t.decl? with
  | none =>
    unfold Program.overridesNamed at h
    rw [hd] at h
    cases h
    exact List.forall_mem_nil _
  | some d =>
    obtain ⟨settled, hdeclared, rfl, heq⟩ := Program.exists_overridesNamed_eq hd h
    rw [heq]
    exact hw.mem_through ht hlists hd hdeclared hw.catalog rfl

/-- After all overrides were asked for, on a type of the same declaration, they are what they were
then. -/
theorem overrides_of_steps_overridesOf {u : Ty} (hu : u.decl? = some d)
    (hsteps : (w.attempt (w.program.overridesOf u)).2.Steps w') :
    w'.catalog.isClosed d = true ∧
      (w'.program.record d).overrides = (w.program.record d).overrides :=
  hsteps.closed (w.isClosed_overridesOf hu)

/-- If all overrides of a type can be settled, asking for those by name gives what they have of that
name, in the same order: before and after all of them were asked for, and whatever happened in between.
If what they speak of was listed, then from the first answer on it has the same handles. -/
theorem overridesNamed_agrees (hw : w.Reachable) (ht : w.program.HasType t)
    (hall : (w.attempt (w.program.overridesOf t)).1 = .ok l) (name : String) :
    (w.attempt (w.overridesNamed t name)).1 = .ok (Override.named name l) ∧
    (∀ w', (w.attempt (w.program.overridesOf t)).2.Steps w' →
      (w'.attempt (w'.program.overridesOf t)).1 = .ok l ∧
      (w'.attempt (w'.overridesNamed t name)).1 = .ok (Override.named name l)) ∧
    (w.ListsOverrides t →
      ∀ w₁ ∈ [(w.attempt (w.program.overridesOf t)).2, (w.attempt (w.overridesNamed t name)).2],
        ∀ o ∈ Override.named name l, ∀ m ∈ o.methods, w₁.HasHandle m) := by
  have hanswer : ∀ {w' : World}, outcome (w'.program.overridesOf t) = .ok l →
      (w'.attempt (w'.overridesNamed t name)).1 = .ok (Override.named name l) := by
    intro w' hw'
    rw [fst_attempt]
    exact Program.outcome_overridesNamed_of_overridesOf hw' _ name
  rw [fst_attempt] at hall
  refine ⟨hanswer hall, fun w' hsteps => ?_, fun hlists => ?_⟩
  · have hall' : outcome (w'.program.overridesOf t) = .ok l := by
      cases hd : t.decl? with
      | none =>
        unfold Program.overridesOf at hall ⊢
        rw [hd] at hall ⊢
        exact hall
      | some d =>
        rw [Program.outcome_overridesOf_of_decl? hd] at hall ⊢
        rw [(overrides_of_steps_overridesOf hd hsteps).2]
        exact hall
    rw [fst_attempt]
    exact ⟨hall', hanswer hall'⟩
  · refine List.forall_mem_cons.2 ⟨fun o ho => ?_, List.forall_mem_singleton.2 ?_⟩
    · exact hw.sound.hasHandle_overridesOf ht hlists (by rw [fst_attempt, hall]) o
        (List.mem_filter.1 ho).1
    · exact hw.sound.hasHandle_overridesNamed ht hlists (hanswer hall)

/-- Where overrides clash, asking by name fails if they are closed, or if those of that name clash. -/
theorem toOption_overridesNamed_eq_none (ht : t.decl? = some d)
    (hclash : Override.Clash (w.program.record d).overrides.declared) (name : String) :
    (w.attempt (w.overridesNamed t name)).1.toOption = none ↔ w.catalog.isClosed d = true ∨
      Override.Clash (Override.named name (w.program.record d).overrides.declared) := by
  rw [fst_attempt, overridesNamed, Program.outcome_overridesNamed_of_decl? ht,
    Override.toOption_seenOn_eq_none]
  have hsettled : ¬ ∃ r, (w.program.record d).overrides.settled = .ok r := by
    rw [(w.program.record d).overrides.sound, Override.exists_settle_iff, not_not]
    exact hclash
  cases hclosed : w.catalog.isClosed d with
  | false => simp [Override.exists_settle_iff]
  | true =>
    cases hall : (w.program.record d).overrides.settled with
    | ok r => exact absurd ⟨r, hall⟩ hsettled
    | error fault => simp [Except.map]

/-- If overrides of a declaration clash, asking for all of them fails, on the declared type and on its
instantiations alike, and names two of them that clash.  From then on asking by name fails for the same
reason, whatever the name.  So the answer is what it was before only if they were closed then, or if
those of that name clash themselves. -/
theorem overridesNamed_after_clash {u : Ty} (ht : t.decl? = some d) (hu : u.decl? = some d)
    (hclash : Override.Clash (w.program.record d).overrides.declared) :
    ∃ first ∈ (w.program.record d).overrides.declared,
      ∃ second ∈ (w.program.record d).overrides.declared,
      first.decl = second.decl ∧ first.body.owner ≠ second.body.owner ∧
      (w.attempt (w.program.overridesOf u)).1 =
        .error (Fault.conflictingOverrides second.decl first.body second.body).report ∧
      ∀ w', (w.attempt (w.program.overridesOf u)).2.Steps w' → ∀ name,
        (w'.attempt (w'.overridesNamed t name)).1 =
          .error (Fault.conflictingOverrides second.decl first.body second.body).report ∧
        ((w.attempt (w.overridesNamed t name)).1.toOption =
            (w'.attempt (w'.overridesNamed t name)).1.toOption ↔ w.catalog.isClosed d = true ∨
          Override.Clash (Override.named name (w.program.record d).overrides.declared)) := by
  obtain ⟨fault, hfault⟩ : ∃ fault, (w.program.record d).overrides.settled = .error fault := by
    rw [(w.program.record d).overrides.sound]
    cases hsettle : Override.settle (w.program.record d).overrides.declared with
    | ok r => exact absurd hclash (Override.exists_settle_iff.1 ⟨r, hsettle⟩)
    | error fault => exact ⟨fault, rfl⟩
  obtain ⟨first, hfirst, second, hsecond, hdecl, howner, rfl⟩ :=
    Override.exists_of_settleAfter_eq_error ((w.program.record d).overrides.sound.symm.trans hfault)
  refine ⟨first, hfirst, second, hsecond, hdecl, howner, ?_, fun w' hsteps name => ?_⟩
  · rw [fst_attempt, Program.outcome_overridesOf_of_decl? hu, hfault]
    rfl
  · obtain ⟨hclosed, hsame⟩ := overrides_of_steps_overridesOf hu hsteps
    have hafter : (w'.attempt (w'.overridesNamed t name)).1 =
        .error (Fault.conflictingOverrides second.decl first.body second.body).report := by
      rw [fst_attempt, overridesNamed, Program.outcome_overridesNamed_of_decl? ht, if_pos hclosed,
        hsame, hfault]
      rfl
    refine ⟨hafter, ?_⟩
    rw [hafter, ← toOption_overridesNamed_eq_none ht hclash name]
    rfl

end World

/-! ## Lamps

To switch a lamp on or off is to make it glow.  That switching it on is also to switch it off comes too
late to count, and that it is to idle like other devices contradicts what was said before. -/

/-- Declarations lead to a program, and so far nothing was asked that closes overrides. -/
def Program.Unasked (P : Program) : Prop :=
  ∃ c : Catalog, (⟨P, c⟩ : World).Reachable ∧ c.closed = .empty

/-- As long as nothing was closed, no type has its overrides closed. -/
theorem Catalog.isClosed_eq_false {c : Catalog} (h : c.closed = .empty) (d : TypeDecl) :
    c.isClosed d = false := by
  rw [isClosed, h]
  exact IndexSet.contains_empty d.id

namespace Program.Unasked

variable {P P' : Program}

/-- At the start, nothing was asked. -/
theorem initial : Program.initial.Unasked :=
  ⟨Catalog.initial, .refl, Catalog.closed_addTypes _ _⟩

/-- A program about which nothing was asked is coherent. -/
theorem coherent (h : P.Unasked) : P.Coherent := by
  obtain ⟨c, hreach, -⟩ := h
  exact hreach.sound.program

/-- A type with a new name can be declared before anything is asked. -/
theorem withDecl (h : P.Unasked) {d : TypeDecl} (hid : d.id = P.types.size)
    (hflags : (d.flags.abstract || d.flags.interface) = d.flags.abstract)
    (hname : d.fullName ∉ P.names.toList) : (P.withDecl d).Unasked := by
  obtain ⟨c, hreach, hclosed⟩ := h
  exact ⟨_, hreach.withDecl hid hflags hname, (c.closed_addType _).trans hclosed⟩

/-- The base of a type can be set before anything is asked. -/
theorem setBase (h : P.Unasked) {t : Ty} {base : Option Ty} (ht : P.HasType t)
    (hbase : ∀ b ∈ base, P.HasType b) (hset : P.setBase t base = .ok P') : P'.Unasked := by
  obtain ⟨c, hreach, hclosed⟩ := h
  exact ⟨c, hreach.tail (.setBase ht hbase (bind_eq_ok.2 ⟨_, hset, rfl⟩)), hclosed⟩

/-- A method can be added before anything is asked. -/
theorem addMethod (h : P.Unasked) {owner : Ty} {name : String} {signature : Signature}
    {flags : MethodFlags} {m : MethodDecl} (howner : P.HasType owner)
    (hsignature : P.HasSignature signature)
    (hadd : P.addMethod owner name signature flags = .ok (m, P')) : P'.Unasked := by
  obtain ⟨c, hreach, hclosed⟩ := h
  exact ⟨_, hreach.tail (.addMethod howner hsignature (bind_eq_ok.2 ⟨_, hadd, rfl⟩)),
    (c.closed_addMethod _).trans hclosed⟩

/-- A method without parameters or result. -/
theorem addMethod_ofName (h : P.Unasked) {id : Nat} {owner : TypeDecl} {name : String}
    {flags : MethodFlags} (howner : P.HasDecl owner)
    (hadd : P.addMethod (.decl owner) name (MethodDecl.ofName id owner name flags).signature flags =
      .ok (.ofName id owner name flags, P')) : P'.Unasked := by
  have howner : P.HasType (.decl owner) := howner
  have hsignature : P.HasSignature (MethodDecl.ofName id owner name flags).signature :=
    ⟨h.coherent.grounded.wellKnown .void, List.forall_mem_nil _⟩
  exact h.addMethod howner hsignature hadd

/-- An override can be added before anything is asked. -/
theorem addOverride (h : P.Unasked) {owner : Ty} {decl body : Method} (howner : P.HasType owner)
    (hdecl : P.HasMethod decl) (hbody : P.HasMethod body)
    (hadd : P.addOverride (fun _ => false) owner decl body = .ok P') : P'.Unasked := by
  obtain ⟨c, hreach, hclosed⟩ := h
  refine ⟨c, hreach.tail (.addOverride howner hdecl hbody (bind_eq_ok.2 ⟨_, ?_, rfl⟩)), hclosed⟩
  rw [funext (Catalog.isClosed_eq_false hclosed)]
  exact hadd

end Program.Unasked

/-- A program with a further override on a declared type. -/
def Program.withOverride (P : Program) (d : TypeDecl) (o : Override) : Program :=
  P.modifyRecord d fun r => { r with overrides := r.overrides.push o }

/-- Overrides of virtual methods by virtual methods can be declared one after the other. -/
theorem Program.Unasked.withOverrides {P : Program} (h : P.Unasked) {d : TypeDecl} {l : List Override}
    (hd : P.HasDecl d) (hl : ∀ o ∈ l, ∀ m ∈ o.methods, P.HasMethod m ∧ m.isVirtual = true) :
    (l.foldl (·.withOverride d ·) P).Unasked ∧ P.Extends (l.foldl (·.withOverride d ·) P) := by
  induction l generalizing P with
  | nil => exact ⟨h, fun hd => hd, fun m hm => hm⟩
  | cons o l ih =>
    obtain ⟨ho, hl⟩ := List.forall_mem_cons.1 hl
    obtain ⟨hdecl, hbody⟩ := List.forall_mem_cons.1 ho
    have hbody := hbody o.body (List.mem_singleton_self _)
    have hadd : P.addOverride (fun _ => false) (.decl d) o.decl o.body = .ok (P.withOverride d o) := by
      simp [Program.addOverride, Ty.declared, Ty.definition?, hdecl.2, hbody.2, withOverride, bind,
        Except.bind]
    have hext := (h.coherent.addOverride hdecl.1 hbody.1 hadd).2
    have howner : P.HasType (.decl d) := hd
    obtain ⟨hunasked, hrest⟩ := ih (h.addOverride howner hdecl.1 hbody.1 hadd) (hext.decl hd)
      fun o' ho' m hm => ⟨hext.hasMethod (hl o' ho' m hm).1, (hl o' ho' m hm).2⟩
    exact ⟨hunasked, hext.trans hrest⟩

namespace Lamps

def device : TypeDecl := { id := 19, space := "", name := "Device" }

def lamp : TypeDecl := { id := 20, space := "", name := "Lamp", arity := 1 }

def idle : MethodDecl := .ofName 0 device "Idle" .ofVirtual

def on : MethodDecl := .ofName 1 lamp "On" .ofVirtual

def off : MethodDecl := .ofName 2 lamp "Off" .ofVirtual

def glow : MethodDecl := .ofName 3 lamp "Glow" .ofVirtual

/-- Both types with their methods. -/
def devices : Program :=
  { Program.initial with
    types := (Program.initial.types.push { decl := device, methods := [idle], overrides := .none }).push
      { decl := lamp, methods := [on, off, glow], overrides := .none }
    names := (Program.initial.names.insert device.fullName).insert lamp.fullName
    methodCount := 4 }

def program : Program :=
  [⟨on.method, glow.method⟩, ⟨off.method, glow.method⟩, ⟨on.method, off.method⟩].foldl
    (·.withOverride lamp ·) devices

def clashing : Program :=
  program.withOverride lamp ⟨on.method, idle.method⟩

/-- Nothing was asked yet, and the methods are there. -/
structure Ready (P : Program) : Prop where
  unasked : P.Unasked
  lamp : P.HasType (.decl lamp)
  methods : ∀ m ∈ [idle, on, off, glow], P.HasMethod m.method

/-- Devices and lamps can be declared with their methods. -/
theorem ready_devices : Ready devices := by
  have hdevice : device.fullName ∉ Program.initial.names.toList := by
    rw [Program.initial, Roster.mem_toList_insertAll]
    decide
  have hlamp : lamp.fullName ∉ (Program.initial.names.insert device.fullName).toList := by
    rw [Roster.mem_toList_insert, Program.initial, Roster.mem_toList_insertAll]
    decide
  have hdeclared := Program.Unasked.initial.withDecl (d := device) rfl rfl hdevice
  have hidle := @Program.Unasked.addMethod_ofName _ _ hdeclared 0 device "Idle" .ofVirtual
    (Program.hasDecl_of_getElem? (i := 19) rfl) rfl
  have hdeclared := hidle.withDecl (d := lamp) rfl rfl hlamp
  have hon := @Program.Unasked.addMethod_ofName _ _ hdeclared 1 lamp "On" .ofVirtual
    (Program.hasDecl_of_getElem? (i := 20) rfl) rfl
  have hoff := @Program.Unasked.addMethod_ofName _ _ hon 2 lamp "Off" .ofVirtual
    (Program.hasDecl_of_getElem? (i := 20) rfl) rfl
  have hglow := @Program.Unasked.addMethod_ofName _ devices hoff 3 lamp "Glow" .ofVirtual
    (Program.hasDecl_of_getElem? (i := 20) rfl) rfl
  have hlamp : devices.HasDecl lamp := Program.hasDecl_of_getElem? (i := 20) rfl
  refine ⟨hglow, hlamp, List.forall_mem_cons.2 ⟨?_, fun m hm => ?_⟩⟩
  · exact ⟨⟨device, rfl, .head _⟩, Program.hasDecl_of_getElem? (i := 19) rfl, List.forall_mem_nil _⟩
  · have howner : m.owner = lamp := by
      simp only [List.mem_cons, List.not_mem_nil, or_false] at hm
      rcases hm with rfl | rfl | rfl <;> rfl
    rw [← howner] at hlamp
    refine ⟨⟨m.owner, rfl, ?_⟩, hlamp, List.forall_mem_nil _⟩
    rw [howner]
    exact hm

/-- Overrides among the four methods can be declared on lamps, and all is as ready as before. -/
theorem Ready.withOverrides {P : Program} (h : Ready P) {l : List Override}
    (hl : ∀ o ∈ l, ∀ m ∈ o.methods, m ∈ [idle, on, off, glow].map MethodDecl.method) :
    Ready (l.foldl (·.withOverride Lamps.lamp ·) P) := by
  have hmethod : ∀ m ∈ [idle, on, off, glow].map MethodDecl.method,
      P.HasMethod m ∧ m.isVirtual = true := by
    refine List.forall_mem_map.2 fun m hm => ⟨h.methods m hm, ?_⟩
    simp only [List.mem_cons, List.not_mem_nil, or_false] at hm
    rcases hm with rfl | rfl | rfl | rfl <;> rfl
  obtain ⟨hunasked, hext⟩ := h.unasked.withOverrides h.lamp fun o ho m hm => hmethod m (hl o ho m hm)
  exact ⟨hunasked, hext.hasType h.lamp, fun m hm => hext.hasMethod (h.methods m hm)⟩

/-- The three overrides of lamps can be declared. -/
theorem ready_program : Ready program :=
  ready_devices.withOverrides (by simp [Override.methods])

/-- The override that contradicts them can be declared too. -/
theorem ready_clashing : Ready clashing :=
  ready_program.withOverrides (l := [⟨on.method, idle.method⟩]) (by simp [Override.methods])

/-- A lamp for texts. -/
def texts : Ty :=
  .app (.decl lamp) (.ofWellKnown .string)

/-- Three overrides are declared on lamps. -/
theorem declared_program : (program.record lamp).overrides.declared =
    [⟨on.method, glow.method⟩, ⟨off.method, glow.method⟩, ⟨on.method, off.method⟩] := rfl

/-- The third of them comes too late to count. -/
theorem settled_program : (program.record lamp).overrides.settled =
    .ok [⟨on.method, glow.method⟩, ⟨off.method, glow.method⟩] := by
  have hne : on ≠ off := by simp [on, off, MethodDecl.ofName]
  have howner : glow.owner = off.owner := rfl
  rw [(program.record lamp).overrides.sound, declared_program]
  simp [Override.settle, Override.settleAfter, hne, howner]

/-- A method of lamps, on a lamp for texts. -/
def onTexts (m : MethodDecl) : Method :=
  ⟨m, texts, []⟩

/-- On a lamp for texts, the two that count are seen. -/
theorem overridesOf_texts : outcome (program.overridesOf texts) =
    .ok [⟨onTexts on, onTexts glow⟩, ⟨onTexts off, onTexts glow⟩] := by
  rw [Program.outcome_overridesOf_of_decl? (d := lamp) rfl, settled_program]
  rfl

/-- There is a world with lamps in which what their overrides speak of is listed. -/
theorem exists_listsOverrides : ∃ w : World, w.Reachable ∧ w.program = program ∧
    w.ListsOverrides texts := by
  obtain ⟨c, hreach, -⟩ := ready_program.unasked
  have hmethods : ∀ m ∈ [idle, on, off, glow].map MethodDecl.method, program.HasMethod m :=
    List.forall_mem_map.2 ready_program.methods
  obtain ⟨w, hsteps, hprogram, hlisted⟩ := World.Reachable.exists_listedMethods hreach hmethods
  refine ⟨w, hreach.trans hsteps, hprogram, fun d hd o ho m hm => hlisted m ?_⟩
  cases hd
  rw [hprogram, declared_program] at ho
  simp only [List.mem_cons, List.not_mem_nil, or_false] at ho
  rcases ho with rfl | rfl | rfl <;>
    simp only [Override.methods, List.mem_cons, List.not_mem_nil, or_false] at hm <;>
    rcases hm with rfl | rfl <;> simp

/-- Asked for the override of switching a lamp for texts off, a world gives the same before and after
all overrides of that lamp are asked for. -/
theorem overridesNamed_agrees_off : ∃ w : World,
    (w.Reachable ∧ w.program.HasType texts ∧ w.ListsOverrides texts ∧
      (w.attempt (w.program.overridesOf texts)).1 =
        .ok [⟨onTexts on, onTexts glow⟩, ⟨onTexts off, onTexts glow⟩]) ∧
    (w.attempt (w.overridesNamed texts "Off")).1 = .ok [⟨onTexts off, onTexts glow⟩] ∧
    (∀ w', (w.attempt (w.program.overridesOf texts)).2.Steps w' →
      (w'.attempt (w'.overridesNamed texts "Off")).1 = .ok [⟨onTexts off, onTexts glow⟩]) ∧
    (w.attempt (w.program.overridesOf texts)).2.HasHandle (onTexts off) ∧
    (w.attempt (w.overridesNamed texts "Off")).2.HasHandle (onTexts off) := by
  obtain ⟨w, hreach, hprogram, hlists⟩ := exists_listsOverrides
  have htexts : w.program.HasType texts := by
    rw [hprogram]
    exact ⟨rfl, ready_program.lamp, Program.hasDecl_of_getElem? (i := WellKnown.string.decl.id) rfl⟩
  have hall : (w.attempt (w.program.overridesOf texts)).1 =
      .ok [⟨onTexts on, onTexts glow⟩, ⟨onTexts off, onTexts glow⟩] := by
    rw [World.fst_attempt, hprogram, overridesOf_texts]
  have hoff : Override.named "Off"
      [⟨onTexts on, onTexts glow⟩, ⟨onTexts off, onTexts glow⟩] =
      [⟨onTexts off, onTexts glow⟩] := rfl
  obtain ⟨hnow, hlater, hhandles⟩ := World.overridesNamed_agrees hreach htexts hall "Off"
  rw [hoff] at hnow hlater hhandles
  have hhandles := fun w₁ hw₁ => hhandles hlists w₁ hw₁ _ (.head _) (onTexts off) (.head _)
  exact ⟨w, ⟨hreach, htexts, hlists, hall⟩, hnow, fun w' hw' => (hlater w' hw').2,
    hhandles _ (.head _), hhandles _ (.tail _ (.head _))⟩

/-! ### Where the overrides of lamps clash -/

/-- The overrides of switching a lamp on clash. -/
theorem clash_on : Override.Clash
    (Override.named "On" (clashing.record lamp).overrides.declared) := by
  have hnamed : Override.named "On" (clashing.record lamp).overrides.declared =
      [⟨on.method, glow.method⟩, ⟨on.method, off.method⟩, ⟨on.method, idle.method⟩] := rfl
  rw [hnamed]
  refine ⟨⟨on.method, glow.method⟩, .head _, ⟨on.method, idle.method⟩, by simp, rfl, ?_⟩
  simp [glow, idle, lamp, device, MethodDecl.ofName]

/-- All overrides of lamps taken together clash. -/
theorem clash_clashing : Override.Clash (clashing.record lamp).overrides.declared :=
  clash_on.mono fun o ho => ⟨o, (List.mem_filter.1 ho).1, rfl, rfl⟩

/-- Switching a lamp off is overridden once. -/
theorem named_off_clashing : Override.named "Off" (clashing.record lamp).overrides.declared =
    [⟨off.method, glow.method⟩] := rfl

/-- The overrides of switching a lamp off do not clash. -/
theorem not_clash_off : ¬ Override.Clash
    (Override.named "Off" (clashing.record lamp).overrides.declared) := by
  rw [named_off_clashing]
  exact Override.not_clash_concat Override.not_clash_nil (List.forall_mem_nil _)

/-- Lamps, and lamps for texts, are types of the program. -/
theorem hasType_clashing : ∀ t ∈ [.decl lamp, texts],
    t.decl? = some lamp ∧ clashing.HasType t := by
  have hstring : clashing.HasDecl WellKnown.string.decl :=
    Program.hasDecl_of_getElem? (i := WellKnown.string.decl.id) rfl
  exact List.forall_mem_cons.2 ⟨⟨rfl, ready_clashing.lamp⟩,
    List.forall_mem_singleton.2 ⟨rfl, rfl, ready_clashing.lamp, hstring⟩⟩

/-- Asking for all overrides of a lamp loses that of switching it off, and leaves without an answer only
what had none. -/
theorem overridesNamed_after_clash_lamp : ∃ w : World,
    (texts.decl? = some lamp ∧ (Ty.decl lamp).decl? = some lamp ∧
      Override.Clash (w.program.record lamp).overrides.declared) ∧
    w.Reachable ∧ w.catalog.isClosed lamp = false ∧
    ∀ w', (w.attempt (w.program.overridesOf (.decl lamp))).2.Steps w' →
      (w.attempt (w.overridesNamed texts "On")).1.toOption =
        (w'.attempt (w'.overridesNamed texts "On")).1.toOption ∧
      (w.attempt (w.overridesNamed texts "Off")).1.toOption ≠
        (w'.attempt (w'.overridesNamed texts "Off")).1.toOption := by
  obtain ⟨c, hreach, hclosed⟩ := ready_clashing.unasked
  have hopen := Catalog.isClosed_eq_false hclosed lamp
  obtain ⟨_, -, _, -, -, -, -, hafter⟩ :=
    World.overridesNamed_after_clash (w := ⟨clashing, c⟩) (t := texts) (u := .decl lamp) (d := lamp)
      rfl rfl clash_clashing
  refine ⟨⟨clashing, c⟩, ⟨rfl, rfl, clash_clashing⟩, hreach, hopen, fun w' hw' => ⟨?_, ?_⟩⟩
  · exact (hafter w' hw' "On").2.2 (.inr clash_on)
  · intro hsame
    rcases (hafter w' hw' "Off").2.1 hsame with hclosed | hclash
    · exact absurd (hopen.symm.trans hclosed) Bool.false_ne_true
    · exact not_clash_off hclash

/-- Switching a lamp off has one override, and a world gives it when it is asked, for the declared lamp
and for one with texts.  After all overrides of the one or of the other were asked for, which clash, it
does not give it any more. -/
theorem exists_overridesNamed_lost : ∃ w : World, w.Reachable ∧
    Override.Clash (w.program.record lamp).overrides.declared ∧
    ∀ t ∈ [.decl lamp, texts], ∀ u ∈ [.decl lamp, texts],
      w.Steps (w.attempt (w.program.overridesOf u)).2 ∧
      (w.attempt (w.overridesNamed t "Off")).1 =
        .ok [Override.through t.args ⟨off.method, glow.method⟩] ∧
      ((w.attempt (w.program.overridesOf u)).2.attempt
        ((w.attempt (w.program.overridesOf u)).2.overridesNamed t "Off")).1.toOption = none := by
  obtain ⟨c, hreach, hclosed⟩ := ready_clashing.unasked
  refine ⟨⟨clashing, c⟩, hreach, clash_clashing, fun t ht u hu => ?_⟩
  obtain ⟨ht, -⟩ := hasType_clashing t ht
  obtain ⟨hu, htype⟩ := hasType_clashing u hu
  refine ⟨.single (.ask (.overridesOf htype)), ?_, ?_⟩
  · rw [World.fst_attempt, World.overridesNamed, Program.outcome_overridesNamed_of_decl? ht,
      Catalog.isClosed_eq_false hclosed, named_off_clashing]
    rfl
  · refine (World.toOption_overridesNamed_eq_none ht ?_ "Off").2 (.inl ?_)
    · exact clash_clashing
    · exact World.isClosed_overridesOf _ hu

end Lamps

end AheadOfTime
