import AheadOfTime.Proofs.Entry
import AheadOfTime.Proofs.Program.SlotTable
import AheadOfTime.Proofs.World

/-!
# Interning is exact

In every world that can be reached handles stand for one type or one method each, and entries are
determined by their shapes.  Whatever happens later, an entry stays what it is.  Numbers are kept in
thirty-two bits, so this asks for no more entries than there are such numbers.
-/

set_option autoImplicit false

namespace AheadOfTime

/-! ## How much is entered -/

/-- The number of types that a type is written with. -/
def Ty.nodes : Ty → Nat
  | .app f a => f.nodes + a.nodes + 1
  | .array t _ | .pointer t | .byRef t => t.nodes + 1
  | .decl _ | .param _ _ | .canon => 1

/-- The number of types that some types are written with. -/
def Ty.nodesAll : List Ty → Nat
  | [] => 0
  | t :: ts => t.nodes + nodesAll ts

/-- The number of types that a signature is written with. -/
def Signature.nodes (s : Signature) : Nat :=
  Ty.nodesAll s.parameters + s.result.nodes

/-- The number of types that a method is written with, together with the methods before it. -/
def Method.nodes (m : Method) : Nat :=
  m.owner.nodes + m.typical.signature.nodes + m.definition.signature.nodes + Ty.nodesAll m.args +
    m.signature.nodes

namespace Catalog

/-- A catalog has at most so many types and methods more than another one. -/
structure AddsAtMost (c c' : Catalog) (types methods : Nat) : Prop where
  types : c'.types.size ≤ c.types.size + types
  methods : c'.methods.size ≤ c.methods.size + methods

namespace AddsAtMost

variable {c c' c'' : Catalog} {n k n' k' : Nat}

/-- A catalog that stays as it is has nothing more. -/
theorem refl (c : Catalog) (n k : Nat) : c.AddsAtMost c n k :=
  ⟨by omega, by omega⟩

/-- The numbers of what is added in two steps add up. -/
theorem trans (h : c.AddsAtMost c' n k) (h' : c'.AddsAtMost c'' n' k') :
    c.AddsAtMost c'' (n + n') (k + k') := by
  obtain ⟨htypes, hmethods⟩ := h
  obtain ⟨htypes', hmethods'⟩ := h'
  constructor <;> omega

/-- A bound on what is added may be raised. -/
theorem mono (h : c.AddsAtMost c' n k) (hn : n ≤ n') (hk : k ≤ k') : c.AddsAtMost c' n' k' := by
  obtain ⟨htypes, hmethods⟩ := h
  constructor <;> omega

/-- Entering a type lists one type more at most. -/
theorem enterType (c : Catalog) (t : Ty) : c.AddsAtMost (c.enterType t).2 1 0 := by
  unfold Catalog.enterType
  split
  · exact refl c 1 0
  · exact ⟨c.types.size_insert_le t, Nat.le_refl _⟩

/-- Entering a type enters no more than the type is written with. -/
theorem addType_addGeneric (t : Ty) :
    (∀ c : Catalog, c.AddsAtMost (c.addType t).2 t.nodes 0) ∧
    ∀ c : Catalog, c.AddsAtMost (c.addGeneric t).2 t.nodes 0 := by
  -- of a type that is not listed yet the parts are entered, and then the type
  have hstep : ∀ {u : Ty} {n : Nat}, u.nodes = n + 1 →
      (∀ c : Catalog, c.AddsAtMost (c.addParts u) n 0) →
      ∀ c : Catalog, c.AddsAtMost (c.addType u).2 u.nodes 0 := by
    intro u n hn hparts c
    by_cases hmem : u ∈ c.types.toList
    · rw [addType_of_mem hmem]
      exact refl c _ 0
    · rw [addType_of_not_mem hmem, hn]
      exact (hparts c).trans (.enterType _ u)
  induction t with
  | decl d => exact ⟨hstep rfl fun c => refl c 0 0, fun c => .enterType c (.decl d)⟩
  | app f a ihf iha =>
    have hparts : ∀ c : Catalog,
        c.AddsAtMost ((c.addGeneric f).2.addType a).2 (f.nodes + a.nodes) 0 :=
      fun c => (ihf.2 c).trans (iha.1 _)
    refine ⟨hstep rfl hparts, fun c => ?_⟩
    rw [addGeneric_app]
    exact (hparts c).mono (Nat.le_succ _) (Nat.le_refl _)
  | array e r ih => exact ⟨hstep rfl ih.1, fun c => refl c _ 0⟩
  | pointer u ih => exact ⟨hstep rfl ih.1, fun c => refl c _ 0⟩
  | byRef u ih => exact ⟨hstep rfl ih.1, fun c => refl c _ 0⟩
  | param k i => exact ⟨hstep rfl fun c => refl c 0 0, fun c => refl c _ 0⟩
  | canon => exact ⟨hstep rfl fun c => refl c 0 0, fun c => refl c _ 0⟩

/-- Adding a type lists as many types more as it is written with, at most. -/
theorem addType (c : Catalog) (t : Ty) : c.AddsAtMost (c.addType t).2 t.nodes 0 :=
  (addType_addGeneric t).1 c

/-- Adding types lists as many types more as they are written with, at most. -/
theorem addTypes (c : Catalog) (ts : List Ty) :
    c.AddsAtMost (c.addTypes ts).2 (Ty.nodesAll ts) 0 := by
  induction ts generalizing c with
  | nil => exact refl c 0 0
  | cons t ts ih =>
    rw [addTypes_cons]
    exact (AddsAtMost.addType c t).trans (ih _)

/-- Entering a method lists the types of its signature and one method more at most. -/
theorem enterMethod (c : Catalog) (m : Method) :
    c.AddsAtMost (c.enterMethod m).2 m.signature.nodes 1 := by
  by_cases hmem : m ∈ c.methods.toList
  · rw [enterMethod_of_mem hmem]
    exact refl c _ 1
  · rw [enterMethod_of_not_mem hmem]
    have htypes := (AddsAtMost.addTypes c m.signature.parameters).trans
      (AddsAtMost.addType _ m.signature.result)
    generalize ((c.addTypes m.signature.parameters).2.addType m.signature.result).2 = c' at *
    obtain ⟨htypes, hmethods⟩ := htypes
    refine ⟨htypes, ?_⟩
    have hinsert := c'.methods.size_insert_le m
    show (c'.methods.insert m).size ≤ c.methods.size + 1
    omega

/-- Entering a method enters at most the method, the one without arguments and the one declared. -/
theorem addMethod (c : Catalog) (m : Method) :
    c.AddsAtMost (c.addMethod m).2 m.nodes 3 := by
  by_cases hmem : m ∈ c.methods.toList
  · obtain ⟨n, hn⟩ := c.methods.exists_find?_of_mem hmem
    rw [Catalog.addMethod, hn]
    exact refl c _ 3
  · rw [addMethod_of_not_mem hmem]
    exact ((((AddsAtMost.addType c m.owner).trans (.enterMethod _ m.typical)).trans
      (.enterMethod _ m.definition)).trans (.addTypes _ m.args)).trans (.enterMethod _ m)

/-- Needing a method lists the types that it is written with and three methods more at most. -/
theorem needMethod (c : Catalog) (m : Method) :
    c.AddsAtMost ((needMethod m).run c).2 m.nodes 3 := by
  unfold AheadOfTime.needMethod
  split
  · exact refl c _ 3
  · exact .addMethod c m

end AddsAtMost

end Catalog

/-! ## Worlds -/

namespace World

/-- Types and methods are interned, entries of declarations agree with the program, and a type or a
method that is asked for has the number that is answered. -/
structure Interned (w : World) : Prop where
  types : w.catalog.TypesInterned
  methods : w.catalog.MethodsInterned
  declaredType : ∀ {h : Handle} {e : TypeEntry} {d : TypeDecl}, w.catalog.typeAt? h = some e →
    e.shape.former = .declared d → (w.program.types[d.id]?).map (·.decl) = some d
  declaredMethod : ∀ {h : Handle} {e : MethodEntry} {d : MethodDecl},
    w.catalog.methodAt? h = some e → e.shape.former = .declared d →
      d ∈ (w.program.record d.owner).methods
  typeNumber : ∀ {t : Ty}, w.program.HasType t →
    (w.typeNumber t).2.catalog.types.handle? .type t = some (.ofNat .type (w.typeNumber t).1)
  methodNumber : ∀ {m : Method}, w.program.HasMethod m →
    (w.methodNumber m).2.catalog.methods.handle? .method m =
      some (.ofNat .method (w.methodNumber m).1)

/-- The items of a sound world are interned, as long as there are numbers for them. -/
theorem Sound.interned {w : World} (h : w.Sound) (htypes : w.catalog.types.size ≤ UInt32.size)
    (hmethods : w.catalog.methods.size ≤ UInt32.size) : w.Interned where
  types := h.catalog.typesInterned h.program.listable htypes
  methods := h.catalog.methodsInterned h.program.listable htypes hmethods
  declaredType {g e d} he hd := by
    obtain ⟨t, ht, parts, -, rfl⟩ := Catalog.typeAt?_eq_some_iff.1 he
    have htype := h.catalog.type t (Roster.mem_of_deref? ht)
    obtain rfl : t = .decl d := Ty.eq_decl_of_former hd
    obtain ⟨hrecord, hdecl⟩ := h.program.record htype
    rw [hrecord, Option.map_some, hdecl]
  declaredMethod {g e d} he hd := by
    obtain ⟨m, hm, ms, -, ts, -, owner, -, signature, -, rfl⟩ :=
      Catalog.methodAt?_eq_some_iff.1 he
    have hmethod := h.catalog.method m (Roster.mem_of_deref? hm)
    obtain ⟨-, rfl⟩ := Method.of_former_declared hd
    obtain ⟨d, hd, hdecl⟩ := hmethod.declared
    rw [h.program.listable.declaring hmethod] at hd
    rw [Option.some.inj hd]
    exact hdecl
  typeNumber ht := Roster.handle?_of_mem .type (h.catalog.addType h.program.listable ht).2
  methodNumber hm := Roster.handle?_of_mem .method (h.catalog.addMethod h.program.listable hm).2

/-- In every world that can be reached interning is exact, and what is interned stays what it is. -/
theorem interning_exact {w : World} (h : w.Reachable) (htypes : w.catalog.types.size ≤ UInt32.size)
    (hmethods : w.catalog.methods.size ≤ UInt32.size) :
    w.Interned ∧ ∀ w', w.Steps w' → w.catalog.Kept w'.catalog := by
  refine ⟨h.sound.interned htypes hmethods, fun w' hsteps => ?_⟩
  exact (h.sound.steps hsteps).2.kept

end World

/-- A type with a new name can be declared. -/
theorem Program.exists_define {P : Program} {space name : String} (flags : TypeFlags) (arity : Nat)
    (hname : qualifiedName space name ∉ P.names.toList) :
    ∃ d P', P.define space name flags arity = .ok (d, P') ∧ d.arity = arity := by
  have hlookup : ¬(P.lookup? (qualifiedName space name)).isSome = true := by
    rw [lookup?, P.names.position?_of_not_mem hname]
    exact Bool.false_ne_true
  exact ⟨_, _, if_neg hlookup, rfl⟩

/-- A type with a new name can be declared in a world. -/
theorem World.Reachable.withDecl {w : World} (hw : w.Reachable) {d : TypeDecl}
    (hid : d.id = w.program.types.size)
    (hflags : (d.flags.abstract || d.flags.interface) = d.flags.abstract)
    (hname : d.fullName ∉ w.program.names.toList) :
    (w.withType d (w.program.withDecl d)).2.Reachable :=
  hw.tail (.define (bind_eq_ok.2 ⟨_, Program.define_withDecl hid hflags hname, rfl⟩))

namespace Picking

/-- The method takes what its own parameter stands for, and gives what that of the type stands for. -/
def signature : Signature :=
  { result := .param .type 0, parameters := [.param .method 0], arity := 1 }

/-- Declares a generic type with a generic method. -/
def declare : Except Fault (Ty × Method × World) := do
  let (box, w) ← World.define {} "" "Box" {} 1
  let (pick, w) ← w.addMethod box "Pick" signature {}
  .ok (box, pick, w)

/-- Asks for the method on a box of arrays, with such a box as its argument. -/
def build : Except Fault (Method × World) := do
  let (box, pick, w) ← declare
  let boxed ← box.apply [.array .object none]
  let pick ← pick.on boxed
  let pick ← pick.apply [boxed]
  .ok (w.ask (needMethod pick))

/-- The box and its method can be declared, which lists thirty types and three methods at most. -/
theorem exists_declare : ∃ (box : TypeDecl) (pick : MethodDecl) (w : World),
    declare = .ok (.decl box, pick.method, w) ∧ box.arity = 1 ∧ pick.owner = box ∧
    pick.signature = signature ∧ w.Reachable ∧ w.program.HasType (.decl box) ∧
    w.program.HasMethod pick.method ∧ (default : Catalog).AddsAtMost w.catalog 30 3 := by
  have hname : qualifiedName "" "Box" ∉ Program.initial.names.toList := by
    rw [Program.initial, Roster.mem_toList_insertAll]
    decide
  obtain ⟨box, P, hP, harity⟩ := Program.exists_define {} 1 hname
  obtain ⟨hcoherent, -, hbox⟩ := Program.coherent_initial.define hP
  have hdefine : World.define {} "" "Box" {} 1 = .ok (World.withType {} box P) := by
    rw [World.define, hP]
    rfl
  have hbox : P.HasType (.decl box) := hbox
  have hsignature : P.HasSignature signature := ⟨trivial, List.forall_mem_singleton.2 trivial⟩
  obtain ⟨pick, P', hP', howner, hpick⟩ : ∃ pick P', P.addMethod (.decl box) "Pick" signature {} =
      .ok (pick, P') ∧ pick.owner = box ∧ pick.signature = signature := ⟨_, _, rfl, rfl, rfl⟩
  obtain ⟨-, hext, hmethod⟩ := hcoherent.addMethod hbox hsignature hP'
  have hadd : (World.withType {} box P).2.addMethod (.decl box) "Pick" signature {} =
      .ok (pick.method, ⟨P', ((World.withType {} box P).2.catalog.addMethod pick.method).2⟩) :=
    bind_eq_ok.2 ⟨_, hP', rfl⟩
  refine ⟨box, pick, ⟨P', ((World.withType {} box P).2.catalog.addMethod pick.method).2⟩, ?_, harity,
    howner, hpick, ?_, hext.hasType hbox, hmethod, ?_⟩
  · exact bind_eq_ok.2 ⟨_, hdefine, bind_eq_ok.2 ⟨_, hadd, rfl⟩⟩
  · exact (Relation.ReflTransGen.single (.define hdefine)).tail (.addMethod hbox hsignature hadd)
  · refine (((Catalog.AddsAtMost.addTypes default _).trans (.addType _ (.decl box))).trans
      (.addMethod _ pick.method)).mono ?_ (Nat.le_refl 3)
    cases pick
    cases hpick
    exact Nat.le_of_ble_eq_true rfl

/-- The method can be asked for on a box of arrays, and there are numbers for all that is listed
then. -/
theorem exists_build : ∃ answer, build = .ok answer ∧ answer.2.Reachable ∧
    answer.2.catalog.types.size ≤ UInt32.size ∧ answer.2.catalog.methods.size ≤ UInt32.size := by
  obtain ⟨box, pick, w, hdeclare, harity, howner, hsignature, hreach, hbox, hpick, hsize⟩ :=
    exists_declare
  have harray : w.program.HasType (.array .object none) :=
    ⟨nofun, hreach.sound.program.grounded.wellKnown .object⟩
  obtain ⟨boxed, hnamed⟩ : ∃ t, t = Ty.named box [.array .object none] := ⟨_, rfl⟩
  have happly : (Ty.decl box).apply [.array .object none] = .ok boxed := by
    simp [hnamed, Ty.apply, Ty.declared, Ty.definition?, harity, bind, Except.bind]
  have hboxed := hbox.apply (List.forall_mem_singleton.2 harray) happly
  have hon : pick.method.on boxed = .ok ⟨pick, boxed, []⟩ := by
    cases howner
    simp [hnamed, Method.on, Method.isTypical, MethodDecl.method, Ty.named, Ty.definition,
      Ty.definition?]
  have hargs : Method.apply ⟨pick, boxed, []⟩ [boxed] = .ok ⟨pick, boxed, [boxed]⟩ := by
    simp [Method.apply, Method.isGenericDefinition, Method.signature, hsignature, signature,
      Signature.subst]
  have hreach' : (w.ask (needMethod ⟨pick, boxed, [boxed]⟩)).2.Reachable :=
    .tail hreach (.ask (.applyMethod (hpick.on hboxed hon) (List.forall_mem_singleton.2 hboxed) hargs))
  obtain ⟨htypes, hmethods⟩ := hsize.trans (.needMethod w.catalog ⟨pick, boxed, [boxed]⟩)
  have hnodes : (default : Catalog).types.size + (30 + Method.nodes ⟨pick, boxed, [boxed]⟩) ≤
      UInt32.size := by
    cases pick
    cases hsignature
    cases hnamed
    exact Nat.le_of_ble_eq_true rfl
  refine ⟨w.ask (needMethod ⟨pick, boxed, [boxed]⟩), ?_, hreach', Nat.le_trans htypes hnodes,
    Nat.le_trans hmethods (Nat.le_of_ble_eq_true rfl)⟩
  exact bind_eq_ok.2 ⟨_, hdeclare, bind_eq_ok.2 ⟨_, happly, bind_eq_ok.2 ⟨_, hon,
    bind_eq_ok.2 ⟨_, hargs, rfl⟩⟩⟩⟩

/-- Interning is exact in the world that has the method. -/
theorem interning_exact_build : ∃ answer, build = .ok answer ∧
    (answer.2.Reachable ∧ answer.2.catalog.types.size ≤ UInt32.size ∧
      answer.2.catalog.methods.size ≤ UInt32.size) ∧
    answer.2.Interned ∧ ∀ w', answer.2.Steps w' → answer.2.catalog.Kept w'.catalog := by
  obtain ⟨answer, hbuild, hreach, htypes, hmethods⟩ := exists_build
  exact ⟨answer, hbuild, ⟨hreach, htypes, hmethods⟩,
    World.interning_exact hreach htypes hmethods⟩

end Picking

end AheadOfTime
