import AheadOfTime.Proofs.Interning
import AheadOfTime.Proofs.Symbol
import AheadOfTime.Proofs.Ty.Name

/-!
# Names and symbols of types

A program keeps the names of its declarations, and a name that it keeps cannot be declared again.  So
in every world that can be reached a declaration is known by its full name.  If declared names are free
of the characters that structure names of types, then the name of a type says what it is built from,
and so does its symbol.
-/

set_option autoImplicit false

namespace AheadOfTime

/-! ## Declared names -/

/-- A full name is written with the characters of the name space and the name, and a dot. -/
theorem TypeDecl.mem_fullName {d : TypeDecl} {c : Char} (h : c ∈ d.fullName.toList) :
    c ∈ d.space.toList ++ d.name.toList ∨ c = '.' := by
  unfold fullName qualifiedName at h
  split at h
  · exact .inl (List.mem_append_right _ h)
  · rw [String.toList_append, String.toList_append, List.mem_append, List.mem_append] at h
    rcases h with (h | h) | h
    · exact .inl (List.mem_append_left _ h)
    · exact .inr (by simpa using h)
    · exact .inl (List.mem_append_right _ h)

namespace Program

variable {P P' : Program}

/-- The names that a program keeps are the full names of its declarations, in order. -/
def KeepsNames (P : Program) : Prop :=
  P.names.toList = P.types.toList.map (·.decl.fullName)

namespace KeepsNames

/-- The well-known types are kept by their names. -/
theorem initial : Program.initial.KeepsNames := by
  have hnodup : (WellKnown.all.map (·.decl.fullName)).Nodup := by decide +kernel
  have hnames : Program.initial.names.toList = WellKnown.all.map (·.decl.fullName) :=
    Roster.toList_insertAll_of_nodup hnodup
  rw [KeepsNames, hnames]
  rfl

/-- A name that is kept is looked up. -/
theorem isSome_lookup? (h : P.KeepsNames) {fullName : String} (hname : fullName ∈ P.names.toList) :
    (P.lookup? fullName).isSome = true := by
  obtain ⟨i, hi⟩ := (P.names.mem_toList_iff_get? fullName).1 hname
  have hrecord := P.names.get?_eq_getElem? i
  rw [hi, h, List.getElem?_map, Array.getElem?_toList] at hrecord
  obtain ⟨r, hr, -⟩ := Option.map_eq_some_iff.1 hrecord.symm
  rw [lookup?, (P.names.position?_eq_some_iff fullName i).2 hi, Option.bind_some, hr]
  rfl

/-- Defining a type keeps its name. -/
theorem define (h : P.KeepsNames) {space name : String} {flags : TypeFlags} {arity : Nat}
    {d : TypeDecl} (hdefine : P.define space name flags arity = .ok (d, P')) : P'.KeepsNames := by
  unfold Program.define at hdefine
  dsimp only at hdefine
  split at hdefine
  · cases hdefine
  · next hlookup =>
    cases hdefine
    have hnew : qualifiedName space name ∉ P.names.toList := fun hmem =>
      hlookup (h.isSome_lookup? hmem)
    rw [KeepsNames, P.names.toList_insert_of_not_mem _ hnew, h, Array.toList_push, List.map_append]
    rfl

/-- What leaves names and declarations alone keeps the names. -/
theorem of_types (h : P.KeepsNames) (hnames : P'.names = P.names)
    (htypes : P'.types.toList.map (·.decl) = P.types.toList.map (·.decl)) : P'.KeepsNames := by
  have hfull := congrArg (List.map TypeDecl.fullName) htypes
  rw [List.map_map, List.map_map] at hfull
  rw [KeepsNames, hnames, h]
  exact hfull.symm

/-- What is said about a declaration does not change its name. -/
theorem modifyRecord (h : P.KeepsNames) (d : TypeDecl) {f : TypeRecord → TypeRecord}
    (hf : ∀ r, (f r).decl = r.decl) : (P.modifyRecord d f).KeepsNames := by
  refine h.of_types rfl (List.ext_getElem? fun i => ?_)
  rw [List.getElem?_map, List.getElem?_map, Array.getElem?_toList, Array.getElem?_toList,
    Program.modifyRecord, Array.getElem?_modify]
  split
  · rw [Option.map_map]
    exact congrArg (P.types[i]?.map ·) (funext hf)
  · rfl

/-- Different declarations have different full names. -/
theorem eq_of_fullName (h : P.KeepsNames) {d e : TypeDecl} (hd : P.HasDecl d) (he : P.HasDecl e)
    (hname : d.fullName = e.fullName) : d = e := by
  obtain ⟨r, hr, rfl⟩ := hd
  obtain ⟨r', hr', rfl⟩ := he
  have hnodup := P.names.nodup_toList
  rw [h] at hnodup
  rw [List.inj_on_of_nodup_map hnodup hr hr' hname]

end KeepsNames

/-- A program that is built by declarations keeps the names of its types. -/
theorem Built.keepsNames (h : P.Built) : P.KeepsNames := by
  induction h with
  | initial => exact .initial
  | define _ hdefine ih => exact ih.define hdefine
  | setBase _ hset ih =>
    obtain ⟨d, -, rfl⟩ := setBase_eq_ok hset
    exact ih.modifyRecord d fun _ => rfl
  | setInterfaces _ hset ih =>
    obtain ⟨d, rfl⟩ := setInterfaces_eq_ok hset
    exact ih.modifyRecord d fun _ => rfl
  | addMethod _ hadd ih =>
    obtain ⟨d, -, -, rfl⟩ := addMethod_eq_ok hadd
    exact ih.modifyRecord d fun _ => rfl
  | addField _ hadd ih =>
    obtain ⟨d, rfl⟩ := addField_eq_ok hadd
    exact ih.modifyRecord d fun _ => rfl
  | addOverride _ _ hadd ih =>
    obtain ⟨d, -, -, rfl⟩ := addOverride_eq_ok hadd
    exact ih.modifyRecord d fun _ => rfl
  | setBody _ ih => exact ih

/-- Name spaces and names of types have none of the characters that structure the names of types, and
no type is called like the placeholder. -/
structure NamesPlainly (P : Program) : Prop where
  plain : ∀ d, P.HasDecl d → ∀ c ∈ d.space.toList ++ d.name.toList, c ∉ Ty.marks
  ne_canonName : ∀ d, P.HasDecl d → d.fullName ≠ Ty.canonName

/-- If types are named plainly and their names are kept, names can be told apart. -/
theorem NamesPlainly.namesApart (h : P.NamesPlainly) (hnames : P.KeepsNames) :
    Ty.NamesApart [] P.HasDecl where
  plain d hd c hc := by
    refine ⟨?_, List.not_mem_nil⟩
    rcases d.mem_fullName hc with hc | rfl
    · exact h.plain d hd c hc
    · decide
  ne_canonName := h.ne_canonName
  unique d e hd he := hnames.eq_of_fullName hd he
  further_plain := List.forall_mem_nil _

end Program

/-! ## Types -/

/-- A symbol says as much as the name. -/
theorem Ty.symbol_eq_iff {lead : String} {a b : Ty} :
    a.symbol lead = b.symbol lead ↔ a.name = b.name := by
  rw [symbol, symbol, name, name, String.ofList_inj, String.append_right_inj, String.ofList_inj]
  exact ⟨Symbol.encode_inj, congrArg Symbol.encode⟩

/-- In a world that can be reached and names its types plainly, types with the same name are the same,
and so are types with the same symbol, whatever its lead. -/
theorem World.types_told_by_names {w : World} (hw : w.Reachable) (hnames : w.program.NamesPlainly)
    {a b : Ty} (ha : w.program.HasType a) (hb : w.program.HasType b) :
    (a.name = b.name → a = b) ∧ ∀ lead, a.symbol lead = b.symbol lead → a = b := by
  have hname : a.name = b.name → a = b := by
    intro h
    have hD := hnames.namesApart hw.built.keepsNames
    have hchars : [] ++ a.chars = [] ++ b.chars := String.ofList_injective h
    exact ((hD.readsBack ha).chars hb (opened_nil _) (opened_nil _) hchars).2
  exact ⟨hname, fun lead h => hname (Ty.symbol_eq_iff.1 h)⟩

/-! ### Pairs

Tables of lists and lists of tables are written with the same characters. -/

namespace Pairs

def pair : TypeDecl := { id := 19, space := "App", name := "Pair`2", arity := 2 }

def program : Program :=
  Program.initial.withDecl pair

/-- A pair of lists of tables and pointers to parameters. -/
def lists : Ty :=
  .named pair [.array (.array .object (some 2)) none, .pointer (.param .method 1)]

/-- A pair of tables of lists and pointers to parameters. -/
def tables : Ty :=
  .named pair [.array (.array .object none) (some 2), .pointer (.param .method 1)]

/-- Pairs and the well-known types are named plainly. -/
theorem namesPlainly : program.NamesPlainly := by
  have hplain : ∀ r ∈ program.types.toList,
      ((r.decl.space.toList ++ r.decl.name.toList).all (· ∉ Ty.marks)) = true ∧
        r.decl.fullName ≠ Ty.canonName := by decide +kernel
  constructor
  · rintro _ ⟨r, hr, rfl⟩ c hc
    exact of_decide_eq_true (List.all_eq_true.1 (hplain r hr).1 c hc)
  · rintro _ ⟨r, hr, rfl⟩
    exact (hplain r hr).2

/-- The two pairs have different names and different symbols. -/
theorem types_told_by_names_pairs : ∃ w : World,
    (w.Reachable ∧ w.program.NamesPlainly ∧ w.program.HasType lists ∧ w.program.HasType tables) ∧
    lists.name ≠ tables.name ∧ ∀ lead, lists.symbol lead ≠ tables.symbol lead := by
  have hname : pair.fullName ∉ Program.initial.names.toList := by
    rw [Program.initial, Roster.mem_toList_insertAll]
    decide
  have hreach := @World.Reachable.withDecl {} .refl pair rfl rfl hname
  have hpair : program.HasDecl pair := Program.hasDecl_of_getElem? (i := 19) rfl
  have hobject : program.HasDecl WellKnown.object.decl := Program.hasDecl_of_getElem? (i := 0) rfl
  have hlists : program.HasType lists :=
    ⟨rfl, ⟨rfl, hpair, by decide, by decide, hobject⟩, trivial⟩
  have htables : program.HasType tables :=
    ⟨rfl, ⟨rfl, hpair, by decide, by decide, hobject⟩, trivial⟩
  have hne : lists ≠ tables := by simp [lists, tables, Ty.named]
  obtain ⟨hnames, hsymbols⟩ := World.types_told_by_names hreach namesPlainly hlists htables
  exact ⟨_, ⟨hreach, namesPlainly, hlists, htables⟩, mt hnames hne,
    fun lead => mt (hsymbols lead) hne⟩

end Pairs

end AheadOfTime
