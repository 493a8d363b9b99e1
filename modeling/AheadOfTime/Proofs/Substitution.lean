import AheadOfTime.Proofs.Sharing
import AheadOfTime.Proofs.Ty.Saturated

/-!
# Filling in arguments twice

Arguments may mention parameters themselves, so that arguments can be filled in again.  Doing that in
turn gives the same as filling in the second arguments in the first ones and then all of them at once,
as long as the first arguments leave no parameter over: one that stays would be filled in by the second
arguments.

In a world both ways lead to one listed type, or one listed method, under one handle.
-/

set_option autoImplicit false

namespace AheadOfTime

/-! ## Arguments for arguments -/

/-- The same arguments, each of them changed. -/
def Bindings.map (f : Ty → Ty) (σ : Bindings) : Bindings where
  ofType := σ.ofType.map f
  ofMethod := σ.ofMethod.map f

/-- Changed arguments are the changes of the arguments. -/
@[simp] theorem Bindings.args_map (f : Ty → Ty) (σ : Bindings) (k : ParamKind) :
    (σ.map f).args k = (σ.args k).map f := by
  cases k <;> rfl

/-- What holds of the arguments of the type and of the method holds of all arguments. -/
theorem Bindings.forall_args {σ : Bindings} {p : Ty → Prop} (htype : ∀ a ∈ σ.ofType, p a)
    (hmethod : ∀ a ∈ σ.ofMethod, p a) : ∀ k, ∀ a ∈ σ.args k, p a
  | .type => htype
  | .method => hmethod

/-- No argument mentions a parameter. -/
def Bindings.Closed (σ : Bindings) : Prop :=
  ∀ k, ∀ a ∈ σ.args k, a.hasParams = false

/-- The alphabet with the parameters for which there are arguments. -/
def Alphabet.filledBy (σ : Bindings) : Alphabet :=
  (Alphabet.scope 0).withParams fun k i => i < (σ.args k).length

namespace Ty

variable {t : Ty} {σ : Bindings}

/-- If there are arguments for all parameters, filling in twice is filling in the filled-in
arguments. -/
theorem Over.subst_subst (ht : t.Over (.filledBy σ)) (τ : Bindings) :
    (t.subst σ).subst τ = t.subst (σ.map (Ty.subst τ)) := by
  induction t with
  | decl d => rfl
  | app f a ihf iha =>
    rw [subst_app, subst_app, subst_app, ihf ht.2.1, iha ht.2.2]
  | array e r ih => rw [subst_array, subst_array, subst_array, ih ht.2]
  | pointer t ih => rw [subst_pointer, subst_pointer, subst_pointer, ih ht]
  | byRef t ih => rw [subst_byRef, subst_byRef, subst_byRef, ih ht]
  | param k i =>
    -- both ways take the argument that is there
    have hi : i < (σ.args k).length := ht
    simp [hi]
  | canon => rfl

/-- Arguments without parameters leave none, if there are arguments for all. -/
theorem Over.hasParams_subst_of_closed (ht : t.Over (.filledBy σ)) (hσ : σ.Closed) :
    (t.subst σ).hasParams = false := by
  rw [← over_scope_zero_iff]
  refine subst_withParams (A := .scope 0) ht fun k i hi => ?_
  have harg : (σ.args k).getD i (.param k i) = (σ.args k)[i] := by simp [hi]
  rw [harg]
  exact over_scope_zero_iff.2 (hσ k _ (List.getElem_mem hi))

/-- Filling in arguments gives something new, unless it gives the type itself or an argument. -/
theorem subst_eq_or_mem_of_isGiven (h : (t.subst σ).isGiven = true) :
    t.subst σ = t ∨ ∃ k, t.subst σ ∈ σ.args k := by
  cases t with
  | app f a =>
    rw [subst_app] at h
    cases h
  | param k i =>
    rw [subst_param, List.getD_eq_getElem?_getD]
    cases harg : (σ.args k)[i]? with
    | none => exact .inl rfl
    | some a => exact .inr ⟨k, List.mem_of_getElem? harg⟩
  | array e r =>
    rw [subst_array] at h
    cases h
  | pointer t =>
    rw [subst_pointer] at h
    cases h
  | byRef t =>
    rw [subst_byRef] at h
    cases h
  | decl d => exact .inl rfl
  | canon => exact .inl rfl

end Ty

namespace Method

/-- The owner of a method is not a generic declaration that stands alone. -/
def Placed (m : Method) : Prop :=
  ∀ d, m.owner = .decl d → d.arity = 0

/-- A method is seen through types over an alphabet. -/
structure Over (A : Alphabet) (m : Method) : Prop where
  owner : m.owner.Over A
  args : ∀ a ∈ m.args, a.Over A

/-- A method is seen through types without parameters. -/
structure NoParams (m : Method) : Prop where
  owner : m.owner.hasParams = false
  args : ∀ a ∈ m.args, a.hasParams = false

variable {m : Method} {σ : Bindings}

/-- In an owner that is not left alone arguments are filled in like everywhere else. -/
theorem Placed.subst_eq (hm : m.Placed) (σ : Bindings) :
    m.subst σ = ⟨m.decl, m.owner.subst σ, m.args.map (Ty.subst σ)⟩ := by
  have howner : substOwner σ m.owner = m.owner.subst σ := by
    unfold substOwner
    split
    · next d hd =>
      rw [hm d hd, hd]
      rfl
    · rfl
  rw [Method.subst, howner]

/-- Filling in arguments keeps a method on an owner that fits it. -/
theorem Placed.subst (hm : m.Placed) (hdecl : m.owner.decl?.isSome = true) (σ : Bindings) :
    (m.subst σ).Placed := by
  intro d hd
  rw [hm.subst_eq σ] at hd
  cases howner : m.owner with
  | decl e =>
    rw [howner] at hd
    cases hd
    exact hm d howner
  | app f a =>
    rw [howner, Ty.subst_app] at hd
    cases hd
  | _ =>
    rw [howner] at hdecl
    cases hdecl

/-- The same for methods: filling in twice is filling in the filled-in arguments. -/
theorem Over.subst_subst (h : m.Over (.filledBy σ)) (hm : m.Placed)
    (hdecl : m.owner.decl?.isSome = true) (τ : Bindings) :
    (m.subst σ).subst τ = m.subst (σ.map (Ty.subst τ)) := by
  have hargs : (m.args.map (Ty.subst σ)).map (Ty.subst τ) =
      m.args.map (Ty.subst (σ.map (Ty.subst τ))) := by
    rw [List.map_map]
    exact List.map_congr_left fun a ha => (h.args a ha).subst_subst τ
  rw [(hm.subst hdecl σ).subst_eq, hm.subst_eq, hm.subst_eq, h.owner.subst_subst, hargs]

/-- Arguments without parameters leave none in a method, if there are arguments for all. -/
theorem Over.noParams_subst_of_closed (h : m.Over (.filledBy σ)) (hm : m.Placed) (hσ : σ.Closed) :
    (m.subst σ).NoParams := by
  rw [hm.subst_eq]
  refine ⟨h.owner.hasParams_subst_of_closed hσ, List.forall_mem_map.2 fun a ha => ?_⟩
  exact (h.args a ha).hasParams_subst_of_closed hσ

/-- In a method without parameters there is nothing to fill in. -/
theorem Placed.subst_of_noParams (hm : m.Placed) (h : m.NoParams) (τ : Bindings) :
    m.subst τ = m := by
  have hargs : m.args.map (Ty.subst τ) = m.args :=
    (List.map_congr_left fun a ha => Ty.subst_of_not_hasParams τ (h.args a ha)).trans
      (List.map_id _)
  rw [hm.subst_eq, Ty.subst_of_not_hasParams τ h.owner, hargs]

/-- Filling in arguments gives a new method, unless it gives the method itself. -/
theorem subst_eq_of_isTypical (hdecl : m.owner.decl?.isSome = true)
    (h : (m.subst σ).isTypical = true) : m.subst σ = m := by
  obtain ⟨decl, owner, args⟩ := m
  rw [isTypical, Bool.and_eq_true, List.isEmpty_iff] at h
  obtain ⟨howner, hargs⟩ := h
  obtain rfl := List.map_eq_nil_iff.1 hargs
  suffices hsame : substOwner σ owner = owner by
    rw [Method.subst, hsame]
    rfl
  replace howner : (substOwner σ owner).definition?.isSome = true := howner
  cases owner with
  | decl d =>
    rw [substOwner] at howner ⊢
    split
    · next hgeneric =>
      -- a declaration with arguments does not stand alone
      rw [if_pos hgeneric] at howner
      rw [Bool.and_eq_true, beq_iff_eq, decide_eq_true_iff] at hgeneric
      have hargs : (Ty.named d σ.ofType).args = [] := by
        cases hnamed : Ty.named d σ.ofType with
        | decl e => rfl
        | _ =>
          rw [hnamed] at howner
          cases howner
      rw [Ty.args_named] at hargs
      rw [hargs, List.length_nil] at hgeneric
      omega
    · rfl
  | app f a =>
    replace howner : ((f.app a).subst σ).definition?.isSome = true := howner
    rw [Ty.subst_app] at howner
    cases howner
  | _ => cases hdecl

end Method

/-! ## Asking for it -/

/-- A type with arguments filled in, which is needed. -/
def Ty.needSubst (σ : Bindings) (t : Ty) : Tracked Ty :=
  needType (t.subst σ)

/-- A method with arguments filled in, which is needed. -/
def Method.needSubst (σ : Bindings) (m : Method) : Tracked Method :=
  needMethod (m.subst σ)

/-- Arguments with arguments filled in, which are needed. -/
def Bindings.needSubst (τ σ : Bindings) : Tracked Bindings := do
  let ofType ← σ.ofType.mapM (Ty.needSubst τ)
  let ofMethod ← σ.ofMethod.mapM (Ty.needSubst τ)
  pure { ofType, ofMethod }

/-- Fills in arguments, and then further ones in what comes out. -/
def substInTurn {α : Type} (fill : Bindings → α → Tracked α) (σ τ : Bindings) (a : α) :
    Tracked α := do
  let b ← fill σ a
  fill τ b

/-- Fills in the further arguments in the first ones, and then those. -/
def substAtOnce {α : Type} (fill : Bindings → α → Tracked α) (σ τ : Bindings) (a : α) :
    Tracked α := do
  let ρ ← τ.needSubst σ
  fill ρ a

/-- The value of a type with arguments filled in, which is needed, is this type. -/
@[simp] theorem Ty.value_needSubst (σ : Bindings) (t : Ty) : (t.needSubst σ).value = t.subst σ :=
  value_needType _

/-- The value of a method with arguments filled in, which is needed, is this method. -/
@[simp] theorem Method.value_needSubst (σ : Bindings) (m : Method) :
    (m.needSubst σ).value = m.subst σ :=
  value_needMethod _

/-- The value of arguments that were filled in themselves is what substitution gives. -/
@[simp] theorem Bindings.value_needSubst (τ σ : Bindings) :
    (τ.needSubst σ).value = σ.map (Ty.subst τ) := by
  simp [needSubst, Bindings.map]

namespace Catalog

variable {V : Vocabulary} {c : Catalog} {σ : Bindings}

/-- After a type was needed it is listed, if those are that are known without being entered. -/
theorem Sound.mem_needType (hV : V.Listable) (h : c.Sound V) {t : Ty} (ht : V.type t)
    (hgiven : t.isGiven = true → t ∈ c.types.toList) :
    t ∈ ((needType t).run c).2.types.toList := by
  unfold needType
  split
  · next hcase => exact hgiven hcase
  · exact (h.addType hV ht).2

/-- A method is listed once it was needed, unless it is a typical one that was not listed before. -/
theorem Sound.mem_needMethod (hV : V.Listable) (h : c.Sound V) {m : Method} (hm : V.method m)
    (htypical : m.isTypical = true → m ∈ c.methods.toList) :
    m ∈ ((needMethod m).run c).2.methods.toList := by
  unfold needMethod
  split
  · next hcase => exact htypical hcase
  · exact (h.addMethod hV hm).2

/-- Filling in listed arguments in a listed type gives a type that is then listed. -/
theorem Sound.mem_typeNeedSubst (hV : V.Listable) (h : c.Sound V) {t : Ty}
    (hσ : ∀ k, ∀ a ∈ σ.args k, a ∈ c.types.toList) (ht : t ∈ c.types.toList)
    (hu : V.type (t.subst σ)) : t.subst σ ∈ ((t.needSubst σ).run c).2.types.toList := by
  refine h.mem_needType hV hu fun hgiven => ?_
  rcases Ty.subst_eq_or_mem_of_isGiven hgiven with hsame | ⟨k, hk⟩
  · rw [hsame]
    exact ht
  · exact hσ k _ hk

/-- A listed method with arguments filled in is listed once it was needed. -/
theorem Sound.mem_methodNeedSubst (hV : V.Listable) (h : c.Sound V) {m : Method}
    (hlisted : m ∈ c.methods.toList) (hn : V.method (m.subst σ)) :
    m.subst σ ∈ ((m.needSubst σ).run c).2.methods.toList := by
  refine h.mem_needMethod hV hn fun htypical => ?_
  have hdecl := hV.declaring (h.method m hlisted)
  rw [Method.subst_eq_of_isTypical (by rw [hdecl]; rfl) htypical]
  exact hlisted

end Catalog

namespace Vocabulary.Covers

variable {V : Vocabulary} {P : Program}

/-- Filling in arguments in arguments stays within the vocabulary. -/
theorem notes_bindingsNeedSubst (hV : V.Covers P) {σ τ : Bindings} (hσ : V.Binds σ)
    (hτ : V.Binds τ) : Notes V.HasEntity (τ.needSubst σ) := by
  have hfill : ∀ k, ∀ a ∈ σ.args k, Notes V.HasEntity (a.needSubst τ) :=
    fun k a ha => .needType (hV.subst (hσ k a ha) hτ)
  exact .bind (.mapM (hfill .type)) (.bind (.mapM (hfill .method)) (.pure _))

end Vocabulary.Covers

/-! ## Worlds -/

namespace World

/-- The handle under which a world lists a type. -/
def typeHandle? (w : World) (t : Ty) : Option Handle :=
  w.catalog.types.handle? .type t

/-- The handle under which a world lists a method. -/
def methodHandle? (w : World) (m : Method) : Option Handle :=
  w.catalog.methods.handle? .method m

/-- Two questions, asked one after the other, have one answer, and from the first answer on it has one
handle. -/
def Meet {α : Type} (handle? : World → α → Option Handle) (w : World) (q r : Tracked α) : Prop :=
  ∃ (a : α) (h : Handle), w.answer q = a ∧ (w.ask q).2.answer r = a ∧
    handle? (w.ask q).2 a = some h ∧ handle? ((w.ask q).2.ask r).2 a = some h

/-- After a question about what the program has, a world lists the same in the same places. -/
theorem Sound.ask {α : Type} {w : World} (hw : w.Sound) {q : Tracked α}
    (hq : Notes (Vocabulary.HasEntity ⟨w.program.HasType, w.program.HasMethod⟩) q) :
    (w.ask q).2.Sound ∧ w.catalog.Extends (w.ask q).2.catalog := by
  have hgrown := hw.catalog.run hw.program.listable hq
  exact ⟨⟨hw.program, hgrown.sound⟩, hgrown.kept⟩

/-- Types keep their handles in a world that lists more. -/
theorem typeHandle?_of_extends {w w' : World} (hext : w.catalog.Extends w'.catalog) (t : Ty)
    (h : Handle) (ht : w.typeHandle? t = some h) : w'.typeHandle? t = some h :=
  Roster.handle?_of_prefix hext.types ht

/-- Methods keep their handles in a world that lists more. -/
theorem methodHandle?_of_extends {w w' : World} (hext : w.catalog.Extends w'.catalog) (m : Method)
    (h : Handle) (hm : w.methodHandle? m = some h) : w'.methodHandle? m = some h :=
  Roster.handle?_of_prefix hext.methods hm

section

variable {w : World} (hw : w.Sound) {σ τ : Bindings}
  (hσ : ∀ k, ∀ a ∈ σ.args k, a ∈ w.catalog.types.toList)
  (hτ : ∀ k, ∀ a ∈ τ.args k, a ∈ w.catalog.types.toList)
include hw hσ hτ

/-- Filling in arguments in turn and at once meet, once the answer to the former is listed. -/
theorem Sound.meet_subst {α : Type} {handle? : World → α → Option Handle}
    (hkept : ∀ {w w' : World}, w.catalog.Extends w'.catalog → ∀ a h, handle? w a = some h →
      handle? w' a = some h) {fill : Bindings → α → Tracked α} {a b : α}
    (hfirst : Notes (Vocabulary.HasEntity ⟨w.program.HasType, w.program.HasMethod⟩) (fill σ a))
    (hsecond : Notes (Vocabulary.HasEntity ⟨w.program.HasType, w.program.HasMethod⟩)
      (fill τ (fill σ a).value))
    (hinTurn : (fill τ (fill σ a).value).value = b)
    (hatOnce : fill (σ.map (Ty.subst τ)) a = fill τ (fill σ a).value)
    (hlisted : ∃ h, handle? ((w.ask (fill σ a)).2.ask (fill τ (fill σ a).value)).2 b = some h) :
    w.Meet handle? (substInTurn fill σ τ a) (substAtOnce fill σ τ a) := by
  have hask : (w.ask (substInTurn fill σ τ a)).2 =
      ((w.ask (fill σ a)).2.ask (fill τ (fill σ a).value)).2 := by
    show ((w.ask (fill σ a)).2.ask (fill τ ((fill σ a).run w.catalog).1)).2 = _
    rw [Recorded.fst_run]
  have hbindings := hw.program.covers.notes_bindingsNeedSubst
    (fun k a ha => hw.catalog.type a (hσ k a ha)) fun k a ha => hw.catalog.type a (hτ k a ha)
  have hsound := (hw.ask (hfirst.bind hsecond)).1
  have hext := (hsound.ask (hbindings.bind (f := (fill · a)) (by
    rw [Bindings.value_needSubst, hatOnce]
    exact hsecond))).2
  obtain ⟨h, hh⟩ := hlisted
  rw [← hask] at hh
  refine ⟨b, h, ?_, ?_, hh, hkept hext b h hh⟩
  · rw [answer_eq_value, substInTurn, Recorded.value_bind, hinTurn]
  · rw [answer_eq_value, substAtOnce, Recorded.value_bind, Bindings.value_needSubst, hatOnce, hinTurn]

/-- For types, filling in arguments in turn and at once meet. -/
theorem Sound.meet_substType {t : Ty} (ht : t ∈ w.catalog.types.toList)
    (hover : t.Over (.filledBy σ)) : w.Meet typeHandle? (substInTurn Ty.needSubst σ τ t)
      (substAtOnce Ty.needSubst σ τ t) := by
  have hlistable := hw.program.listable
  have hfirst := hw.program.covers.subst (hw.catalog.type t ht)
    fun k a ha => hw.catalog.type a (hσ k a ha)
  have hsecond := hw.program.covers.subst hfirst fun k a ha => hw.catalog.type a (hτ k a ha)
  have hgrown := hw.catalog.run hlistable (.needType hfirst)
  have hmem := hgrown.sound.mem_typeNeedSubst hlistable (fun k a ha => hgrown.mem (hτ k a ha))
    (hw.catalog.mem_typeNeedSubst hlistable hσ ht hfirst) hsecond
  refine hw.meet_subst hσ hτ typeHandle?_of_extends (.needType hfirst) ?_ (Ty.value_needSubst _ _) ?_ ?_
  all_goals rw [Ty.value_needSubst]
  · exact .needType hsecond
  · rw [Ty.needSubst, Ty.needSubst, hover.subst_subst]
  · exact ⟨_, Roster.handle?_of_mem .type hmem⟩

/-- For methods, filling in arguments in turn and at once meet. -/
theorem Sound.meet_substMethod {m : Method} (hm : m ∈ w.catalog.methods.toList)
    (hplaced : m.Placed) (hover : m.Over (.filledBy σ)) :
    w.Meet methodHandle? (substInTurn Method.needSubst σ τ m)
      (substAtOnce Method.needSubst σ τ m) := by
  have hlistable := hw.program.listable
  have hmethod := hw.catalog.method m hm
  have hdecl : m.owner.decl?.isSome = true := by
    rw [hlistable.declaring hmethod]
    rfl
  have hfirst := hw.program.covers.methodSubst hmethod fun k a ha => hw.catalog.type a (hσ k a ha)
  have hsecond := hw.program.covers.methodSubst hfirst fun k a ha => hw.catalog.type a (hτ k a ha)
  have hgrown := hw.catalog.run hlistable (.needMethod hfirst)
  have hmem := hgrown.sound.mem_methodNeedSubst hlistable
    (hw.catalog.mem_methodNeedSubst hlistable hm hfirst) hsecond
  refine hw.meet_subst hσ hτ methodHandle?_of_extends (.needMethod hfirst) ?_
    (Method.value_needSubst _ _) ?_ ?_
  all_goals rw [Method.value_needSubst]
  · exact .needMethod hsecond
  · rw [Method.needSubst, Method.needSubst, hover.subst_subst hplaced hdecl]
  · exact ⟨_, Roster.handle?_of_mem .method hmem⟩

end

/-- Filling in arguments composes.  In a world that can be reached, let some arguments be listed, and
further ones.  A listed type for whose parameters the first arguments suffice leads to the same type
under the same handle, whether the further arguments are filled in afterwards or in the first arguments
before; so does a listed method, unless its owner is a generic declaration that stands alone.  First
arguments without parameters leave none over, and then the further ones change nothing. -/
theorem substitution_composes {w : World} (hw : w.Reachable) {σ τ : Bindings}
    (hσ : ∀ k, ∀ a ∈ σ.args k, a ∈ w.catalog.types.toList)
    (hτ : ∀ k, ∀ a ∈ τ.args k, a ∈ w.catalog.types.toList) :
    (∀ t ∈ w.catalog.types.toList, t.Over (.filledBy σ) →
      w.Meet typeHandle? (substInTurn Ty.needSubst σ τ t) (substAtOnce Ty.needSubst σ τ t) ∧
      (σ.Closed → (w.answer (t.needSubst σ)).hasParams = false ∧
        w.answer (substInTurn Ty.needSubst σ τ t) = w.answer (t.needSubst σ))) ∧
    ∀ m ∈ w.catalog.methods.toList, m.Placed → m.Over (.filledBy σ) →
      w.Meet methodHandle? (substInTurn Method.needSubst σ τ m)
        (substAtOnce Method.needSubst σ τ m) ∧
      (σ.Closed → (w.answer (m.needSubst σ)).NoParams ∧
        w.answer (substInTurn Method.needSubst σ τ m) = w.answer (m.needSubst σ)) := by
  simp only [answer_eq_value, substInTurn, Recorded.value_bind, Ty.value_needSubst,
    Method.value_needSubst]
  refine ⟨fun t ht hover => ⟨hw.sound.meet_substType hσ hτ ht hover, fun hclosed => ?_⟩,
    fun m hm hplaced hover => ⟨hw.sound.meet_substMethod hσ hτ hm hplaced hover, fun hclosed => ?_⟩⟩
  · have hparams := hover.hasParams_subst_of_closed hclosed
    exact ⟨hparams, Ty.subst_of_not_hasParams τ hparams⟩
  · have hparams := hover.noParams_subst_of_closed hplaced hclosed
    have hdecl := hw.sound.program.listable.declaring (hw.sound.catalog.method m hm)
    exact ⟨hparams, (hplaced.subst (by rw [hdecl]; rfl) σ).subst_of_noParams hparams τ⟩

/-- Any types of a program can be listed. -/
theorem Reachable.exists_listed {w : World} (hw : w.Reachable) {ts : List Ty}
    (hts : ∀ t ∈ ts, w.program.HasType t) :
    ∃ w', w.Steps w' ∧ w'.program = w.program ∧ ∀ t ∈ ts, t ∈ w'.catalog.types.toList := by
  induction ts generalizing w with
  | nil => exact ⟨w, .refl, rfl, List.forall_mem_nil _⟩
  | cons t ts ih =>
    obtain ⟨ht, hts⟩ := List.forall_mem_cons.1 hts
    have hstep : w.Step (w.typeNumber t).2 := .typeNumber ht
    have hmem := (hw.sound.catalog.addType hw.sound.program.listable ht).2
    obtain ⟨w', hsteps, hprogram, htypes⟩ := ih (w := (w.typeNumber t).2) (hw.tail hstep) hts
    have hkept := ((hw.sound.step hstep).1.steps hsteps).2.types.subset hmem
    exact ⟨w', .head hstep hsteps, hprogram, List.forall_mem_cons.2 ⟨hkept, htypes⟩⟩

/-- Any methods of a program can be listed. -/
theorem Reachable.exists_listedMethods {w : World} (hw : w.Reachable) {ms : List Method}
    (hms : ∀ m ∈ ms, w.program.HasMethod m) :
    ∃ w', w.Steps w' ∧ w'.program = w.program ∧ ∀ m ∈ ms, m ∈ w'.catalog.methods.toList := by
  induction ms generalizing w with
  | nil => exact ⟨w, .refl, rfl, List.forall_mem_nil _⟩
  | cons m ms ih =>
    obtain ⟨hm, hms⟩ := List.forall_mem_cons.1 hms
    have hstep : w.Step (w.methodNumber m).2 := .methodNumber hm
    have hmem := (hw.sound.catalog.addMethod hw.sound.program.listable hm).2
    obtain ⟨w', hsteps, hprogram, hmethods⟩ := ih (w := (w.methodNumber m).2) (hw.tail hstep) hms
    have hkept := ((hw.sound.step hstep).1.steps hsteps).2.methods.subset hmem
    exact ⟨w', .head hstep hsteps, hprogram, List.forall_mem_cons.2 ⟨hkept, hmethods⟩⟩

/-- Any types of a program can be listed, and after them a method. -/
theorem Reachable.exists_listing {w : World} (hw : w.Reachable) {ts : List Ty} {m : Method}
    (hts : ∀ t ∈ ts, w.program.HasType t) (hm : w.program.HasMethod m) :
    ∃ w', w.Steps w' ∧ (∀ t ∈ ts, t ∈ w'.catalog.types.toList) ∧ m ∈ w'.catalog.methods.toList := by
  obtain ⟨w', hsteps, hprogram, htypes⟩ := hw.exists_listed hts
  have hreach : w'.Reachable := hw.trans hsteps
  rw [← hprogram] at hm
  obtain ⟨w'', hsteps', -, hmethods⟩ := hreach.exists_listedMethods (List.forall_mem_singleton.2 hm)
  exact ⟨w'', hsteps.trans hsteps',
    fun t ht => (hreach.sound.steps hsteps').2.types.subset (htypes t ht),
    List.forall_mem_singleton.1 hmethods⟩

end World

namespace Picking

/-- A box of what the parameter of its declaration stands for. -/
def boxed (box : TypeDecl) : Ty :=
  .named box [.param .type 0]

/-- The method on such a box, with arrays of what its own parameter stands for. -/
def pickOn (box : TypeDecl) (pick : MethodDecl) : Method :=
  ⟨pick, boxed box, [.array (.param .method 0) none]⟩

/-- Arguments that mention parameters themselves. -/
def arrays (box : TypeDecl) : Bindings :=
  ⟨[.array (.param .method 0) none], [boxed box]⟩

/-- Arguments without parameters. -/
def objects : Bindings :=
  ⟨[.object], [.object]⟩

/-- Objects as arguments mention no parameters. -/
theorem closed_objects : objects.Closed :=
  Bindings.forall_args (List.forall_mem_singleton.2 rfl) (List.forall_mem_singleton.2 rfl)

/-- One argument for the type and one for the method suffice for the box and for its method. -/
theorem over_pickOn (box : TypeDecl) (pick : MethodDecl) (a b : Ty) :
    (boxed box).Over (.filledBy ⟨[a], [b]⟩) ∧ (pickOn box pick).Over (.filledBy ⟨[a], [b]⟩) := by
  have hbox : (boxed box).Over (.filledBy ⟨[a], [b]⟩) := ⟨trivial, trivial, Nat.one_pos⟩
  exact ⟨hbox, hbox, List.forall_mem_singleton.2 ⟨trivial, Nat.one_pos⟩⟩

/-- Some world lists the box, its method and the arguments. -/
theorem exists_pickOn : ∃ (box : TypeDecl) (pick : MethodDecl) (w : World), w.Reachable ∧
    (∀ t ∈ [boxed box, .array (.param .method 0) none, .object], t ∈ w.catalog.types.toList) ∧
    pickOn box pick ∈ w.catalog.methods.toList := by
  obtain ⟨box, pick, w, -, -, howner, -, hreach, hbox, hpick, -⟩ := exists_declare
  have hobject : w.program.HasType .object := hreach.sound.program.grounded.wellKnown .object
  have hboxed : w.program.HasType (boxed box) := ⟨rfl, hbox, trivial⟩
  have harray : w.program.HasType (.array (.param .method 0) none) := ⟨nofun, trivial⟩
  have hdecl : (boxed box).decl? = pick.method.owner.decl? := by
    rw [MethodDecl.method, howner]
    rfl
  have hm : w.program.HasMethod (pickOn box pick) :=
    ⟨(hpick.onOwner hboxed hdecl).declared, hboxed, List.forall_mem_singleton.2 harray⟩
  obtain ⟨w', hsteps, htypes, hmethod⟩ := hreach.exists_listing (List.forall_mem_cons.2
    ⟨hboxed, List.forall_mem_cons.2 ⟨harray, List.forall_mem_singleton.2 hobject⟩⟩) hm
  exact ⟨box, pick, w', hreach.trans hsteps, htypes, hmethod⟩

/-- In a box, and in the method on it, arrays can be filled in and objects in those. -/
theorem substitution_composes_boxes : ∃ (box : TypeDecl) (pick : MethodDecl) (w : World),
    (w.Reachable ∧ (∀ k, ∀ a ∈ (arrays box).args k, a ∈ w.catalog.types.toList) ∧
      (∀ k, ∀ a ∈ objects.args k, a ∈ w.catalog.types.toList) ∧
      boxed box ∈ w.catalog.types.toList ∧ pickOn box pick ∈ w.catalog.methods.toList) ∧
    w.Meet World.typeHandle? (substInTurn Ty.needSubst (arrays box) objects (boxed box))
      (substAtOnce Ty.needSubst (arrays box) objects (boxed box)) ∧
    w.Meet World.methodHandle?
      (substInTurn Method.needSubst (arrays box) objects (pickOn box pick))
      (substAtOnce Method.needSubst (arrays box) objects (pickOn box pick)) ∧
    (w.answer ((boxed box).needSubst objects)).hasParams = false ∧
    (w.answer ((pickOn box pick).needSubst objects)).NoParams := by
  obtain ⟨box, pick, w, hreach, htypes, hmethod⟩ := exists_pickOn
  obtain ⟨hboxed, htypes⟩ := List.forall_mem_cons.1 htypes
  obtain ⟨harray, hobject⟩ := List.forall_mem_cons.1 htypes
  have hfirst : ∀ k, ∀ a ∈ (arrays box).args k, a ∈ w.catalog.types.toList :=
    Bindings.forall_args (List.forall_mem_singleton.2 harray) (List.forall_mem_singleton.2 hboxed)
  have hsecond : ∀ k, ∀ a ∈ objects.args k, a ∈ w.catalog.types.toList :=
    Bindings.forall_args hobject hobject
  obtain ⟨hover, hoverMethod⟩ := over_pickOn box pick (.array (.param .method 0) none) (boxed box)
  obtain ⟨hover', hoverMethod'⟩ := over_pickOn box pick .object .object
  have hplaced : (pickOn box pick).Placed := nofun
  have hcompose := World.substitution_composes hreach hfirst hsecond
  have hclosed := World.substitution_composes hreach hsecond hsecond
  exact ⟨box, pick, w, ⟨hreach, hfirst, hsecond, hboxed, hmethod⟩,
    (hcompose.1 _ hboxed hover).1, (hcompose.2 _ hmethod hplaced hoverMethod).1,
    ((hclosed.1 _ hboxed hover').2 closed_objects).1,
    ((hclosed.2 _ hmethod hplaced hoverMethod').2 closed_objects).1⟩

end Picking

end AheadOfTime
