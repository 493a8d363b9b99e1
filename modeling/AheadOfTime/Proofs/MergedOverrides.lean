import AheadOfTime.Proofs.NamedOverrides

/-!
# Overrides that merge

Overrides are settled for a declaration: one for each method, and no two of one method that lead to
different types.  An instantiation sees them through its arguments, and two methods that are different
for the declaration may be the same through arguments.  Then their overrides merge.  Nobody settles
them again: the instantiation has two overrides of one method, even if they lead to different types.

That is the only way in which settled overrides are not settled on a type.  It takes two overrides of
one declared method for different instantiations of its owner, and it does not happen on a type without
arguments.
-/

set_option autoImplicit false

namespace AheadOfTime

namespace Override

variable {args : List Ty} {o₁ o₂ : Override} {l r : List Override}

/-- Overrides of different methods that are overrides of one method through arguments. -/
def Merge (args : List Ty) (o₁ o₂ : Override) : Prop :=
  o₁.decl ≠ o₂.decl ∧ (o₁.through args).decl = (o₂.through args).decl

/-- Some overrides merge through arguments. -/
def SomeMerge (args : List Ty) (l : List Override) : Prop :=
  ∃ o₁ ∈ l, ∃ o₂ ∈ l, Merge args o₁ o₂

/-- Without arguments nothing merges. -/
theorem Merge.args_ne_nil (h : Merge args o₁ o₂) : args ≠ [] := by
  rintro rfl
  obtain ⟨hne, heq⟩ := h
  rw [through_nil, through_nil] at heq
  exact hne heq

/-- Only overrides of one declared method merge, where they differ in the owner or in arguments. -/
theorem Merge.decl_eq (h : Merge args o₁ o₂) : o₁.decl.decl = o₂.decl.decl := by
  have hdecl : (o₁.through args).decl.decl = (o₂.through args).decl.decl := by rw [h.2]
  exact hdecl

/-- Settled overrides are of different methods through arguments unless some merge. -/
theorem nodup_decls_through_iff (h : settle l = .ok r) :
    ((r.map (through args)).map decl).Nodup ↔ ¬ SomeMerge args l := by
  have hnodup : (r.map decl).Nodup := nodup_decls_of_settleAfter (by simp) h
  have hmem : ∀ m, m ∈ r.map decl ↔ m ∈ l.map decl := by
    intro m
    rw [mem_decls_of_settleAfter h m]
    simp
  have hmap : (r.map (through args)).map decl = (r.map decl).map (Method.subst { ofType := args }) := by
    rw [List.map_map, List.map_map]
    rfl
  rw [hmap, List.nodup_map_iff_inj_on hnodup]
  constructor
  · rintro hinj ⟨o₁, h₁, o₂, h₂, hne, heq⟩
    have h₁ := (hmem o₁.decl).2 (List.mem_map_of_mem h₁)
    have h₂ := (hmem o₂.decl).2 (List.mem_map_of_mem h₂)
    exact hne (hinj _ h₁ _ h₂ heq)
  · intro hmerge x hx y hy heq
    obtain ⟨o₁, h₁, rfl⟩ := List.mem_map.1 ((hmem x).1 hx)
    obtain ⟨o₂, h₂, rfl⟩ := List.mem_map.1 ((hmem y).1 hy)
    by_contra hne
    exact hmerge ⟨o₁, h₁, o₂, h₂, hne, heq⟩

/-- Where no overrides clash, they clash through arguments only if two merge that lead to different
types. -/
theorem clash_through_iff (h : ¬ Clash l) :
    Clash (l.map (through args)) ↔ ∃ o₁ ∈ l, ∃ o₂ ∈ l, Merge args o₁ o₂ ∧
      (o₁.through args).body.owner ≠ (o₂.through args).body.owner := by
  constructor
  · rintro ⟨_, hseen₁, _, hseen₂, hdecl, howner⟩
    obtain ⟨o₁, h₁, rfl⟩ := List.mem_map.1 hseen₁
    obtain ⟨o₂, h₂, rfl⟩ := List.mem_map.1 hseen₂
    refine ⟨o₁, h₁, o₂, h₂, ⟨fun heq => ?_, hdecl⟩, howner⟩
    -- overrides of one method that lead to different types through arguments do so before
    refine h ⟨o₁, h₁, o₂, h₂, heq, fun hsame => howner ?_⟩
    exact congrArg (Method.substOwner { ofType := args }) hsame
  · rintro ⟨o₁, h₁, o₂, h₂, hmerge, howner⟩
    exact ⟨_, List.mem_map_of_mem h₁, _, List.mem_map_of_mem h₂, hmerge.2, howner⟩

end Override

namespace Program

/-- The overrides that are declared for a type, as its declaration has them. -/
def declaredOverrides (P : Program) (t : Ty) : List Override :=
  match t.decl? with
  | some d => (P.record d).overrides.declared
  | none => []

/-- The overrides that are declared for a type, as it sees them. -/
def seenOverrides (P : Program) (t : Ty) : List Override :=
  (P.declaredOverrides t).map (Override.through t.args)

/-- The overrides of a type are the declared ones, settled and then seen on the type. -/
theorem outcome_overridesOf (P : Program) (t : Ty) :
    outcome (P.overridesOf t) = Override.seenOn t (Override.settle (P.declaredOverrides t)) := by
  unfold declaredOverrides
  cases hd : t.decl? with
  | none =>
    unfold overridesOf
    rw [hd]
    rfl
  | some d => rw [outcome_overridesOf_of_decl? hd, (P.record d).overrides.sound]

end Program

/-- If declared overrides clash, asking for those of a type fails to load it.  Otherwise there is an
answer.  It has one override for each method unless some merge on the type, and the type sees a clash
only if two merge that lead to different types.  Such overrides are of one declared method, and the
type has arguments. -/
theorem World.overrides_distinct_unless_merged (w : World) (t : Ty) :
    (Override.Clash (w.program.declaredOverrides t) →
      ∃ first ∈ w.program.declaredOverrides t, ∃ second ∈ w.program.declaredOverrides t,
        first.decl = second.decl ∧ first.body.owner ≠ second.body.owner ∧
        (w.attempt (w.program.overridesOf t)).1 = .error (.typeLoad none
          (Fault.conflictingOverrides second.decl first.body second.body).text)) ∧
    (¬ Override.Clash (w.program.declaredOverrides t) →
      ∃ l, (w.attempt (w.program.overridesOf t)).1 = .ok l ∧
        ((l.map (·.decl)).Nodup ↔ ¬ Override.SomeMerge t.args (w.program.declaredOverrides t)) ∧
        (Override.Clash (w.program.seenOverrides t) ↔ ∃ o₁ ∈ w.program.declaredOverrides t,
          ∃ o₂ ∈ w.program.declaredOverrides t, Override.Merge t.args o₁ o₂ ∧
            (o₁.through t.args).body.owner ≠ (o₂.through t.args).body.owner)) ∧
    ∀ o₁ o₂, Override.Merge t.args o₁ o₂ → t.args ≠ [] ∧ o₁.decl.decl = o₂.decl.decl := by
  rw [fst_attempt, Program.outcome_overridesOf]
  refine ⟨fun hclash => ?_, fun hclash => ?_, fun o₁ o₂ h => ⟨h.args_ne_nil, h.decl_eq⟩⟩
  · obtain ⟨first, hfirst, second, hsecond, hdecl, howner, herror⟩ := hclash.exists_settle_eq_error
    refine ⟨first, hfirst, second, hsecond, hdecl, howner, ?_⟩
    rw [herror]
    rfl
  · obtain ⟨r, hr⟩ := Override.exists_settle_iff.2 hclash
    refine ⟨r.map (Override.through t.args), ?_, Override.nodup_decls_through_iff hr,
      Override.clash_through_iff hclash⟩
    rw [hr]
    rfl

/-! ## Kitchens

A kitchen serves dishes of its own kind by cooking them, dishes of texts by plating them, and dishes of
numbers by having them carried in from elsewhere.  That is clear for kitchens in general.  A kitchen for
texts both cooks and plates its dishes, and a kitchen for numbers both cooks them and has them carried
in. -/

namespace Kitchens

def dish : TypeDecl :=
  { id := 19, space := "App", name := "Dish`1", flags := { interface := true, abstract := true },
    arity := 1 }

def kitchen : TypeDecl := { id := 20, space := "App", name := "Kitchen`1", arity := 1 }

def porter : TypeDecl := { id := 21, space := "App", name := "Porter" }

def serve : MethodDecl := .ofName 0 dish "Serve" .ofVirtual

def cook : MethodDecl := .ofName 1 kitchen "Cook" .ofVirtual

def plate : MethodDecl := .ofName 2 kitchen "Plate" .ofVirtual

def carry : MethodDecl := .ofName 3 porter "Carry" .ofVirtual

/-- All types with their methods. -/
def kinds : Program :=
  { Program.initial with
    types := ((Program.initial.types.push
      { decl := dish, methods := [serve], overrides := .none }).push
      { decl := kitchen, methods := [cook, plate], overrides := .none }).push
      { decl := porter, methods := [carry], overrides := .none }
    names := ((Program.initial.names.insert dish.fullName).insert kitchen.fullName).insert
      porter.fullName
    methodCount := 4 }

/-- To serve a dish of some kind. -/
def serveOf (t : Ty) : Method :=
  ⟨serve, .app (.decl dish) t, []⟩

def overrides : List Override :=
  [⟨serveOf (.param .type 0), cook.method⟩, ⟨serveOf (.ofWellKnown .string), plate.method⟩,
    ⟨serveOf (.ofWellKnown .int32), carry.method⟩]

def program : Program :=
  overrides.foldl (·.withOverride kitchen ·) kinds

/-- A kitchen for a kind of dishes. -/
def kitchenOf (k : WellKnown) : Ty :=
  .app (.decl kitchen) (.ofWellKnown k)

/-- Dishes, kitchens and porters can be declared with their methods. -/
theorem unasked_kinds : kinds.Unasked := by
  have hnew : ∀ d ∈ [dish, kitchen, porter], d.fullName ∉ Program.initial.names.toList := by
    simp only [Program.initial, Roster.mem_toList_insertAll]
    decide
  have hkitchen : kitchen.fullName ∉ (Program.initial.names.insert dish.fullName).toList := by
    rw [Roster.mem_toList_insert]
    exact not_or.2 ⟨hnew _ (.tail _ (.head _)), by decide⟩
  have hporter : porter.fullName ∉
      ((Program.initial.names.insert dish.fullName).insert kitchen.fullName).toList := by
    rw [Roster.mem_toList_insert, Roster.mem_toList_insert]
    exact not_or.2 ⟨not_or.2 ⟨hnew _ (.tail _ (.tail _ (.head _))), by decide⟩, by decide⟩
  have hdish := @Program.Unasked.withDecl _ .initial dish rfl rfl (hnew _ (.head _))
  have hserve := @Program.Unasked.addMethod_ofName _ _ hdish 0 dish "Serve" .ofVirtual
    (Program.hasDecl_of_getElem? (i := 19) rfl) rfl
  have hkitchen := @Program.Unasked.withDecl _ hserve kitchen rfl rfl hkitchen
  have hcook := @Program.Unasked.addMethod_ofName _ _ hkitchen 1 kitchen "Cook" .ofVirtual
    (Program.hasDecl_of_getElem? (i := 20) rfl) rfl
  have hplate := @Program.Unasked.addMethod_ofName _ _ hcook 2 kitchen "Plate" .ofVirtual
    (Program.hasDecl_of_getElem? (i := 20) rfl) rfl
  have hporter := @Program.Unasked.withDecl _ hplate porter rfl rfl hporter
  exact @Program.Unasked.addMethod_ofName _ kinds hporter 3 porter "Carry" .ofVirtual
    (Program.hasDecl_of_getElem? (i := 21) rfl) rfl

/-- The overrides of kitchens are between virtual methods that are declared. -/
theorem hasMethod_kinds : ∀ o ∈ overrides, ∀ m ∈ o.methods,
    kinds.HasMethod m ∧ m.isVirtual = true := by
  have hkitchen : kinds.HasDecl kitchen := Program.hasDecl_of_getElem? (i := 20) rfl
  have hserve : ∀ {t : Ty}, kinds.HasType t → kinds.HasMethod (serveOf t) := fun ht =>
    ⟨⟨dish, rfl, .head _⟩, ⟨rfl, Program.hasDecl_of_getElem? (i := 19) rfl, ht⟩,
      List.forall_mem_nil _⟩
  have hcook : kinds.HasMethod cook.method :=
    ⟨⟨kitchen, rfl, .head _⟩, hkitchen, List.forall_mem_nil _⟩
  have hplate : kinds.HasMethod plate.method :=
    ⟨⟨kitchen, rfl, .tail _ (.head _)⟩, hkitchen, List.forall_mem_nil _⟩
  have hcarry : kinds.HasMethod carry.method :=
    ⟨⟨porter, rfl, .head _⟩, Program.hasDecl_of_getElem? (i := 21) rfl, List.forall_mem_nil _⟩
  have hwellKnown := unasked_kinds.coherent.grounded.wellKnown
  have hboth : ∀ {m m' : Method}, (kinds.HasMethod m ∧ m.isVirtual = true) →
      (kinds.HasMethod m' ∧ m'.isVirtual = true) →
      ∀ m'' ∈ (Override.mk m m').methods, kinds.HasMethod m'' ∧ m''.isVirtual = true :=
    fun hm hm' => List.forall_mem_cons.2 ⟨hm, List.forall_mem_singleton.2 hm'⟩
  refine List.forall_mem_cons.2 ⟨?_, List.forall_mem_cons.2 ⟨?_, List.forall_mem_singleton.2 ?_⟩⟩
  · exact hboth ⟨hserve trivial, rfl⟩ ⟨hcook, rfl⟩
  · exact hboth ⟨hserve (hwellKnown .string), rfl⟩ ⟨hplate, rfl⟩
  · exact hboth ⟨hserve (hwellKnown .int32), rfl⟩ ⟨hcarry, rfl⟩

/-- Kitchens of every kind have the overrides that were declared. -/
theorem declaredOverrides_kitchenOf (k : WellKnown) :
    program.declaredOverrides (kitchenOf k) = overrides := rfl

/-- For kitchens in general the overrides are of different methods. -/
theorem nodup_decls : (overrides.map Override.decl).Nodup := by
  have hne : WellKnown.string.decl ≠ WellKnown.int32.decl := by decide
  simp [overrides, serveOf, Ty.ofWellKnown, hne]

/-- In a kitchen for some kind of dishes all three overrides are kept. -/
theorem overridesOf_kitchenOf (k : WellKnown) : outcome (program.overridesOf (kitchenOf k)) =
    .ok [⟨serveOf (.ofWellKnown k), ⟨cook, kitchenOf k, []⟩⟩,
      ⟨serveOf (.ofWellKnown .string), ⟨plate, kitchenOf k, []⟩⟩,
      ⟨serveOf (.ofWellKnown .int32), carry.method⟩] := by
  rw [Program.outcome_overridesOf, declaredOverrides_kitchenOf, Override.settle_of_nodup nodup_decls]
  rfl

/-- Some world has kitchens of every well-known kind. -/
theorem exists_reachable : ∃ w : World, w.Reachable ∧ w.program = program ∧
    ∀ k, w.program.HasType (kitchenOf k) := by
  have hkitchen : kinds.HasDecl kitchen := Program.hasDecl_of_getElem? (i := 20) rfl
  obtain ⟨hunasked, hext⟩ := unasked_kinds.withOverrides hkitchen hasMethod_kinds
  have hwellKnown := hunasked.coherent.grounded.wellKnown
  obtain ⟨c, hreach, -⟩ := hunasked
  exact ⟨_, hreach, rfl, fun k => ⟨rfl, hext.decl hkitchen, hwellKnown k⟩⟩

/-- The overrides of kitchens do not clash. -/
theorem not_clash_overrides : ¬ Override.Clash overrides :=
  Override.exists_settle_iff.1 ⟨overrides, Override.settle_of_nodup nodup_decls⟩

/-- In a kitchen for booleans nothing merges, and there is one override for each method. -/
theorem overrides_distinct_unless_merged_boolean : ∃ w : World, w.Reachable ∧
    ¬ Override.Clash (w.program.declaredOverrides (kitchenOf .boolean)) ∧
    ¬ Override.SomeMerge [.ofWellKnown .boolean]
      (w.program.declaredOverrides (kitchenOf .boolean)) ∧
    ∃ l, (w.attempt (w.program.overridesOf (kitchenOf .boolean))).1 = .ok l ∧
      (l.map (·.decl)).Nodup ∧
      ¬ Override.Clash (w.program.seenOverrides (kitchenOf .boolean)) := by
  obtain ⟨w, hreach, hprogram, -⟩ := exists_reachable
  have hclash : ¬ Override.Clash (w.program.declaredOverrides (kitchenOf .boolean)) := by
    rw [hprogram]
    exact not_clash_overrides
  obtain ⟨l, hl, hnodup, hseen⟩ :=
    (World.overrides_distinct_unless_merged w (kitchenOf .boolean)).2.1 hclash
  have hdistinct : (l.map (·.decl)).Nodup := by
    have hanswer := hl
    rw [World.fst_attempt, hprogram, overridesOf_kitchenOf] at hanswer
    cases hanswer
    have hne : WellKnown.string.decl ≠ WellKnown.int32.decl := by decide
    have hstring : WellKnown.boolean.decl ≠ WellKnown.string.decl := by decide
    have hint32 : WellKnown.boolean.decl ≠ WellKnown.int32.decl := by decide
    simp [serveOf, Ty.ofWellKnown, hne, hstring, hint32]
  refine ⟨w, hreach, hclash, hnodup.1 hdistinct, l, hl, hdistinct, fun h => ?_⟩
  obtain ⟨o₁, h₁, o₂, h₂, hmerge, -⟩ := hseen.1 h
  exact hnodup.1 hdistinct ⟨o₁, h₁, o₂, h₂, hmerge⟩

/-- A kitchen for texts has two overrides of one method, and a kitchen for numbers answers for its
overrides although it sees a clash. -/
theorem exists_overrides_merged : ∃ w : World, w.Reachable ∧
    w.program.HasType (kitchenOf .string) ∧ w.program.HasType (kitchenOf .int32) ∧
    (∃ l, (w.attempt (w.program.overridesOf (kitchenOf .string))).1 = .ok l ∧
      ¬ (l.map (·.decl)).Nodup) ∧
    Override.Clash (w.program.seenOverrides (kitchenOf .int32)) ∧
    ∃ l, (w.attempt (w.program.overridesOf (kitchenOf .int32))).1 = .ok l := by
  obtain ⟨w, hreach, hprogram, htype⟩ := exists_reachable
  have hanswer : ∀ k, (w.attempt (w.program.overridesOf (kitchenOf k))).1 = _ := fun k => by
    rw [World.fst_attempt, hprogram, overridesOf_kitchenOf]
  refine ⟨w, hreach, htype .string, htype .int32, ⟨_, hanswer _, by simp⟩, ?_, _, hanswer _⟩
  rw [hprogram]
  -- the dishes are cooked in the kitchen, and they are carried in by a porter
  have howner : kitchenOf .int32 ≠ .decl porter := nofun
  exact ⟨_, .head _, _, .tail _ (.tail _ (.head _)), rfl, howner⟩

end Kitchens

end AheadOfTime
