import AheadOfTime.Proofs.Program.WellFormed
import AheadOfTime.Proofs.Substitution

/-!
# Where methods come from

A method that a world lists can be taken apart into the method as it was declared, the owner and the
arguments, and those three give it back: the same method under the same handle, without anything being
entered.  Its name and its flags are those of the declaration.  Its signature is the declared one with
the arguments of the owner and of the method filled in, at once if those of the owner mention no
parameters.
-/

set_option autoImplicit false

namespace AheadOfTime

/-! ## Signatures -/

/-- Arguments of a type that mention no parameters are not changed by those of a method. -/
theorem Ty.subst_ofType_ofMethod {args : List Ty} (hargs : ∀ a ∈ args, a.hasParams = false)
    (methodArgs : List Ty) (t : Ty) :
    (t.subst { ofType := args }).subst { ofMethod := methodArgs } = t.subst ⟨args, methodArgs⟩ := by
  induction t with
  | app f a ihf iha => rw [subst_app, subst_app, subst_app, ihf, iha]
  | array e r ih => rw [subst_array, subst_array, subst_array, ih]
  | pointer t ih => rw [subst_pointer, subst_pointer, subst_pointer, ih]
  | byRef t ih => rw [subst_byRef, subst_byRef, subst_byRef, ih]
  | param k i =>
    cases k with
    | type =>
      simp only [subst_param, Bindings.args, List.getD_eq_getElem?_getD]
      cases harg : args[i]? with
      | none => rfl
      | some a => exact subst_of_not_hasParams _ (hargs a (List.mem_of_getElem? harg))
    | method => rfl
  | _ => rfl

namespace Method

variable {m : Method}

/-- A typical method has the signature that was declared. -/
theorem signature_typical (m : Method) : m.typical.signature = m.decl.signature := by
  show m.decl.signature.subst {} = m.decl.signature
  rw [Signature.subst, funext Ty.subst_empty, List.map_id']

/-- The signature that a method has on an owner and with arguments, both filled in at once.  With
arguments it is generic no more. -/
def signatureAtOnce (t : Method) (owner : Ty) (args : List Ty) : Signature :=
  { t.signature.subst ⟨owner.args, args⟩ with
    arity := if args.isEmpty then t.signature.arity else 0 }

/-- If the arguments of the owner mention no parameters, a method has the signature of its typical
form with all arguments filled in at once. -/
theorem signature_eq (hparams : ∀ a ∈ m.owner.args, a.hasParams = false) :
    m.signature = m.typical.signatureAtOnce m.owner m.args := by
  rw [signatureAtOnce, signature_typical, signature]
  split
  · next hargs =>
    rw [List.isEmpty_iff.1 hargs]
    rfl
  · simp [Signature.subst, Ty.subst_ofType_ofMethod hparams]

/-! ## Putting a method together -/

/-- A method put together from a method as declared, an owner and arguments. -/
def putTogether (t : Method) (owner : Ty) (args : List Ty) : Tracked Method := do
  let onOwner ← needMethod ⟨t.decl, owner, []⟩
  if args.isEmpty then pure onOwner else needMethod { onOwner with args }

end Method

namespace Catalog

variable {V : Vocabulary} {c : Catalog} {m : Method}

/-- With a method the one without arguments is listed. -/
theorem Sound.mem_definition (h : c.Sound V) (hm : m ∈ c.methods.toList) :
    m.definition ∈ c.methods.toList := by
  by_cases hargs : m.args = []
  · rw [Method.definition_of_args_eq_nil hargs]
    exact hm
  · refine h.precursors.mem hm _ ?_
    simp [Method.precursors, Method.isTypical, hargs]

/-- With a method the one that was declared is listed. -/
theorem Sound.mem_typical (hV : V.Listable) (h : c.Sound V) (hm : m ∈ c.methods.toList) :
    m.typical ∈ c.methods.toList := by
  have hdefinition := h.mem_definition hm
  cases htypical : m.definition.isTypical with
  | true =>
    have hdeclaring := hV.declaring (h.method _ hdefinition)
    rw [Method.eq_typical_of_isTypical htypical hdeclaring] at hdefinition
    exact hdefinition
  | false =>
    refine h.precursors.mem hdefinition m.typical ?_
    rw [Method.precursors, htypical]
    exact List.mem_singleton_self _

/-- Nothing is entered for a method that is listed. -/
theorem run_needMethod_of_mem (hm : m ∈ c.methods.toList) : (needMethod m).run c = (m, c) := by
  have hvalue : ((needMethod m).run c).1 = m := by rw [Recorded.fst_run, value_needMethod]
  refine Prod.ext hvalue ?_
  unfold needMethod
  split
  · rfl
  · obtain ⟨n, hn⟩ := c.methods.exists_find?_of_mem hm
    show (c.addMethod m).2 = c
    rw [Catalog.addMethod, hn]

/-- A listed method is put together again from its origin, and nothing is entered. -/
theorem Sound.run_putTogether (h : c.Sound V) (hm : m ∈ c.methods.toList) :
    (m.typical.putTogether m.owner m.args).run c = (m, c) := by
  have hdefinition : (needMethod ⟨m.typical.decl, m.owner, []⟩).run c = (m.definition, c) :=
    run_needMethod_of_mem (h.mem_definition hm)
  rw [Method.putTogether, Recorded.run_bind, hdefinition]
  dsimp only
  split
  · next hargs =>
    rw [Method.definition_of_args_eq_nil (List.isEmpty_iff.1 hargs)]
    rfl
  · exact run_needMethod_of_mem hm

end Catalog

namespace World

/-- What every method is that a world lists, if the world can be reached.  The method as declared is
listed too, and is one of its declaring type; it has the same name and flags, and the owner is the
declaring type or an instantiation of it.  Putting the three together again gives the method and leaves
the world as it is.  If no argument of the owner mentions a parameter, then the signature is the
declared one with all arguments filled in at once. -/
theorem method_determined {w : World} (hw : w.Reachable) {m : Method}
    (hm : m ∈ w.catalog.methods.toList) :
    (m.typical ∈ w.catalog.methods.toList ∧ m.typical.isTypical = true ∧
      m.typical.decl ∈ (w.program.record m.typical.decl.owner).methods) ∧
    m.name = m.typical.name ∧ m.flags = m.typical.flags ∧ m.owner.definition = m.typical.owner ∧
    w.ask (m.typical.putTogether m.owner m.args) = (m, w) ∧
    ((∀ a ∈ m.owner.args, a.hasParams = false) →
      m.signature = m.typical.signatureAtOnce m.owner m.args) := by
  have hsound := hw.sound
  have hmethod := hsound.catalog.method m hm
  have howner := hsound.program.listable.declaring hmethod
  obtain ⟨d, hd, hdeclared⟩ := hmethod.declared
  rw [howner] at hd
  cases hd
  refine ⟨⟨hsound.catalog.mem_typical hsound.program.listable hm, rfl, hdeclared⟩, rfl, rfl,
    Ty.definition_of_decl? howner, ?_, Method.signature_eq⟩
  have hrun := hsound.catalog.run_putTogether hm
  show (((m.typical.putTogether m.owner m.args).run w.catalog).1,
    World.mk w.program ((m.typical.putTogether m.owner m.args).run w.catalog).2) = _
  rw [hrun]

end World

namespace Picking

/-- A box of arrays. -/
def boxOfArrays (box : TypeDecl) : Ty :=
  .named box [.array .object none]

/-- The method on a box of arrays, with such a box as its argument, comes from its declaration; what it
takes is the argument, and what it gives is what is in the box. -/
theorem method_determined_picked : ∃ (box : TypeDecl) (pick : MethodDecl) (w : World) (m : Method),
    m = ⟨pick, boxOfArrays box, [boxOfArrays box]⟩ ∧
    (w.Reachable ∧ m ∈ w.catalog.methods.toList ∧ ∀ a ∈ m.owner.args, a.hasParams = false) ∧
    pick.method ∈ w.catalog.methods.toList ∧ m.owner.definition = pick.method.owner ∧
    w.ask (pick.method.putTogether (boxOfArrays box) [boxOfArrays box]) = (m, w) ∧
    m.signature = { result := .array .object none, parameters := [boxOfArrays box], arity := 0 } := by
  obtain ⟨box, pick, w, -, -, howner, hsignature, hreach, hbox, hpick, -⟩ := exists_declare
  have harray : w.program.HasType (.array .object none) :=
    ⟨nofun, hreach.sound.program.grounded.wellKnown .object⟩
  have hboxed : w.program.HasType (boxOfArrays box) := ⟨rfl, hbox, harray⟩
  have hdecl : (boxOfArrays box).decl? = pick.method.owner.decl? := by
    rw [MethodDecl.method, howner]
    rfl
  have hm : w.program.HasMethod ⟨pick, boxOfArrays box, [boxOfArrays box]⟩ :=
    ⟨(hpick.onOwner hboxed hdecl).declared, hboxed, List.forall_mem_singleton.2 hboxed⟩
  obtain ⟨w', hsteps, -, hmethod⟩ := hreach.exists_listing (List.forall_mem_nil _) hm
  have hreach' : w'.Reachable := hreach.trans hsteps
  have hparams : ∀ a ∈ (boxOfArrays box).args, a.hasParams = false :=
    List.forall_mem_singleton.2 rfl
  obtain ⟨⟨htypical, -, -⟩, -, -, hdefinition, hask, hsame⟩ :=
    World.method_determined hreach' hmethod
  refine ⟨box, pick, w', _, rfl, ⟨hreach', hmethod, hparams⟩, htypical, hdefinition, hask, ?_⟩
  rw [hsame hparams, Method.signatureAtOnce, Method.signature_typical, hsignature]
  rfl

end Picking

end AheadOfTime
