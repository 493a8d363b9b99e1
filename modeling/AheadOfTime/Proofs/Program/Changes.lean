import AheadOfTime.Program.Basic
import AheadOfTime.Proofs.Tracked

/-!
# What declarations change

Every declaration that is accepted changes one record, or adds one about which nothing is known yet.
What holds of a program after it is found by looking at that record only.
-/

set_option autoImplicit false

namespace AheadOfTime.Program

variable {P P' : Program}

/-! ## Records -/

/-- Of all records at most one is changed. -/
theorem record_modifyRecord (P : Program) (d e : TypeDecl) (f : TypeRecord → TypeRecord) :
    (P.modifyRecord d f).record e = P.record e ∨
      P.record d = P.record e ∧ (P.modifyRecord d f).record e = f (P.record e) := by
  unfold modifyRecord record
  simp only [Array.getElem?_modify]
  split
  · next heq =>
    cases hrecord : P.types[e.id]? with
    | none => exact .inl rfl
    | some r =>
      rw [heq, hrecord]
      exact .inr ⟨rfl, rfl⟩
  · exact .inl rfl

/-- A change to the record of one type leaves those of others alone. -/
theorem record_modifyRecord_of_ne (P : Program) {d e : TypeDecl} (h : d.id ≠ e.id)
    (f : TypeRecord → TypeRecord) : (P.modifyRecord d f).record e = P.record e := by
  unfold modifyRecord record
  rw [Array.getElem?_modify, if_neg h]

/-! ## Accepted declarations -/

/-- A type that was defined has the next number, and its record stands after all others. -/
theorem define_eq_ok {space name : String} {flags : TypeFlags} {arity : Nat} {d : TypeDecl}
    (h : P.define space name flags arity = .ok (d, P')) :
    d.id = P.types.size ∧ P' = { P with
      types := P.types.push { decl := d }, names := P.names.insert (qualifiedName space name) } := by
  unfold define at h
  dsimp only at h
  split at h
  · cases h
  · cases h
    exact ⟨rfl, rfl⟩

/-- About a type that is declared nothing was known before. -/
theorem record_define {space name : String} {flags : TypeFlags} {arity : Nat} {d : TypeDecl}
    (h : P.define space name flags arity = .ok (d, P')) (e : TypeDecl) :
    P'.record e = P.record e ∨ P.record e = { decl := e } ∧ P'.record e = { decl := d } := by
  obtain ⟨-, rfl⟩ := define_eq_ok h
  unfold record
  rw [Array.getElem?_push]
  split
  · next heq => exact .inr ⟨by simp [heq], rfl⟩
  · exact .inl rfl

/-- A base type is given where there was none. -/
theorem setBase_eq_ok {t : Ty} {base : Option Ty} (h : P.setBase t base = .ok P') :
    ∃ d, (P.record d).base = none ∧ P' = P.modifyRecord d fun r => { r with base := some base } := by
  obtain ⟨d, -, h⟩ := bind_eq_ok.1 h
  split at h
  · cases h
  · next hnone =>
    cases h
    exact ⟨d, Option.not_isSome_iff_eq_none.1 hnone, rfl⟩

/-- Setting the interfaces of a type changes these in its record and nothing else. -/
theorem setInterfaces_eq_ok {t : Ty} {interfaces : List Ty}
    (h : P.setInterfaces t interfaces = .ok P') :
    ∃ d, P' = P.modifyRecord d fun r => { r with interfaces := some interfaces } := by
  obtain ⟨d, -, h⟩ := bind_eq_ok.1 h
  split at h
  · cases h
  · cases h
    exact ⟨d, rfl⟩

/-- A method takes the next number. -/
theorem addMethod_eq_ok {owner : Ty} {name : String} {signature : Signature} {flags : MethodFlags}
    {m : MethodDecl} (h : P.addMethod owner name signature flags = .ok (m, P')) :
    ∃ d, owner.declared = .ok d ∧ m = ⟨P.methodCount, d, name, signature, flags⟩ ∧
      P' = { P.modifyRecord d fun r => { r with methods := r.methods ++ [m] } with
        methodCount := P.methodCount + 1 } := by
  obtain ⟨d, hd, h⟩ := bind_eq_ok.1 h
  split at h
  · cases h
  · cases h
    exact ⟨d, hd, rfl, rfl⟩

/-- A field that was added stands last among the fields of its owner. -/
theorem addField_eq_ok {owner : Ty} {name : String} {type : Ty} {flags : FieldFlags} {f : Field}
    (h : P.addField owner name type flags = .ok (f, P')) :
    ∃ d, P' = { P.modifyRecord d fun r => { r with fields := r.fields ++ [f] } with
      fieldCount := P.fieldCount + 1 } := by
  obtain ⟨d, -, h⟩ := bind_eq_ok.1 h
  cases h
  exact ⟨d, rfl⟩

/-- What an override speaks of is virtual, and the type that it is declared on is not closed. -/
theorem addOverride_eq_ok {isClosed : TypeDecl → Bool} {owner : Ty} {decl body : Method}
    (h : P.addOverride isClosed owner decl body = .ok P') :
    ∃ d, isClosed d = false ∧ decl.isVirtual = true ∧
      P' = P.modifyRecord d fun r => { r with overrides := r.overrides.push ⟨decl, body⟩ } := by
  obtain ⟨d, -, h⟩ := bind_eq_ok.1 h
  split at h
  · cases h
  · next hclosed =>
    split at h
    · cases h
    · next hvirtual =>
      cases h
      simp only [Bool.or_eq_true, Bool.not_eq_true', not_or, Bool.not_eq_false] at hvirtual
      exact ⟨d, Bool.eq_false_iff.2 hclosed, hvirtual.1, rfl⟩

end AheadOfTime.Program
