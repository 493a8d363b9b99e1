import AheadOfTime.Method.Basic
import AheadOfTime.Proofs.Symbol
import AheadOfTime.Proofs.Ty.Name

/-!
# Symbols tell methods apart, up to alike overloads

The full name of a method says its owner, its name, its arguments and the types that it takes and
gives, with the arguments filled in.  All of this can be read back.  What a full name does not say is
which declaration the method comes from: two overloads may have become alike once the arguments are
filled in.
-/

set_option autoImplicit false

namespace AheadOfTime

/-- A list can be split at the first occurrence of an element in one way only. -/
theorem append_cons_inj {α : Type} {a : α} {l k r s : List α} (hl : a ∉ l) (hk : a ∉ k)
    (h : l ++ a :: r = k ++ a :: s) : l = k ∧ r = s := by
  rcases List.append_eq_append_iff.1 h with ⟨x, rfl, hx⟩ | ⟨x, rfl, hx⟩ <;> cases x with
  | nil => simp_all
  | cons b x =>
    cases hx
    simp at hl hk

namespace Method

/-- Two methods of one type with the same name, the same arguments, and the same types once the
arguments are filled in. -/
structure Alike (a b : Method) : Prop where
  owner : a.owner = b.owner
  name : a.name = b.name
  args : a.args = b.args
  parameters : a.signature.parameters = b.signature.parameters
  result : a.signature.result = b.signature.result

/-- Methods are alike mutually. -/
theorem Alike.symm {a b : Method} (h : a.Alike b) : b.Alike a :=
  ⟨h.owner.symm, h.name.symm, h.args.symm, h.parameters.symm, h.result.symm⟩

/-- The characters that stand around the names of types in full names of methods. -/
def around : List Char := ['(', ')', ':']

/-- What a full name is made of can be told apart: the types, and the name of the method, which does
not end as if it were followed by arguments. -/
structure Readable (D : TypeDecl → Prop) (m : Method) : Prop where
  owner : m.owner.FormedFrom D
  args : ∀ a ∈ m.args, a.FormedFrom D
  parameters : ∀ p ∈ m.signature.parameters, p.FormedFrom D
  result : m.signature.result.FormedFrom D
  name : m.name.toList.getLast? ≠ some '>'

end Method

namespace Ty

variable {D : TypeDecl → Prop}

/-- The brackets of an array have no colon. -/
theorem colon_notMem_rankChars (r : Option Nat) : ':' ∉ rankChars r := by
  unfold rankChars
  split
  · decide
  · decide
  · simp

/-- A colon in the name of a type and what follows stands in what follows. -/
theorem NamesApart.colon_of_mem_charsThen (hD : NamesApart Method.around D) {t : Ty}
    (ht : t.FormedFrom D) {applied : Bool} {rest : List Char}
    (h : ':' ∈ t.charsThen applied rest) : ':' ∈ rest := by
  induction t generalizing applied rest with
  | decl d =>
    rcases List.mem_append.1 h with h | h
    · exact absurd (by decide) (hD.plain d ht ':' h).2
    · split at h
      · exact (List.mem_cons.1 h).resolve_left (by decide)
      · exact h
  | app f a ihf iha =>
    have hrest := iha ht.2.2 (ihf ht.2.1 h)
    exact (List.mem_cons.1 hrest).resolve_left (by cases applied <;> decide)
  | array e r ih =>
    exact (List.mem_append.1 (ih ht.2 h)).resolve_left (colon_notMem_rankChars r)
  | pointer t ih => exact (List.mem_cons.1 (ih ht h)).resolve_left (by decide)
  | byRef t ih => exact (List.mem_cons.1 (ih ht h)).resolve_left (by decide)
  | param k i =>
    rcases List.mem_append.1 h with h | h
    · rcases List.mem_append.1 h with h | h
      · cases k <;> exact absurd h (by decide)
      · cases Nat.isDigit_of_mem_toDigits (by decide) (by decide) h
    · exact h
  | canon =>
    rcases List.mem_append.1 h with h | h
    · rcases mem_canonName h with h | h | h <;> cases h
    · exact h

/-- The name of a type has no colon. -/
theorem NamesApart.colon_notMem_chars (hD : NamesApart Method.around D) {t : Ty}
    (ht : t.FormedFrom D) : ':' ∉ t.chars := fun h => by
  cases hD.colon_of_mem_charsThen ht h

end Ty

namespace Method

/-- The arguments in a display name. -/
def argsChars (m : Method) : List Char :=
  if m.args.isEmpty then [] else '<' :: (Ty.charsAll m.args ++ ['>'])

/-- The name of a method stands after that of its owner and two colons. -/
theorem chars_eq (m : Method) :
    m.chars = m.owner.chars ++ ':' :: ':' :: (m.name.toList ++ m.argsChars) := by
  unfold chars argsChars
  split <;> simp

/-- Methods that are alike have the same full name. -/
theorem Alike.fullChars_eq {a b : Method} (h : a.Alike b) : a.fullChars = b.fullChars := by
  unfold fullChars
  rw [chars_eq, chars_eq, argsChars, argsChars, h.owner, h.name, h.args, h.parameters, h.result]

/-- A symbol says as much as the full name. -/
theorem symbol_eq_iff {lead : String} {a b : Method} :
    a.symbol lead = b.symbol lead ↔ a.fullChars = b.fullChars := by
  constructor
  · intro h
    have hencoded := congrArg String.toList h
    simp only [symbol, String.toList_append, String.toList_ofList, List.append_cancel_left_eq]
      at hencoded
    exact Symbol.encode_inj hencoded
  · intro h
    rw [symbol, symbol, h]

variable {D : TypeDecl → Prop} (hD : Ty.NamesApart around D) (hne : ∀ d, D d → d.fullName ≠ "")
include hD hne

/-- A name and the arguments after it can be told apart. -/
theorem name_args_inj {a b : Method} (ha : a.Readable D) (hb : b.Readable D)
    (h : a.name.toList ++ a.argsChars = b.name.toList ++ b.argsChars) :
    a.name = b.name ∧ a.args = b.args := by
  have hargs : ∀ {l : List Char} {ts : List Ty},
      (l ++ '<' :: (Ty.charsAll ts ++ ['>'])).getLast? = some '>' := by
    intro l ts
    rw [← List.cons_append, getLast?_append_concat]
  unfold argsChars at h
  cases haEmpty : a.args.isEmpty <;> cases hbEmpty : b.args.isEmpty <;>
    simp only [haEmpty, hbEmpty, if_true, if_false, Bool.false_eq_true, List.append_nil] at h
  · rw [← List.cons_append, ← List.cons_append] at h
    have hcancel := append_cancel_last h
    rw [List.append_cons, List.append_cons b.name.toList] at hcancel
    obtain ⟨hname, hargs⟩ := hD.append_charsAll_inj hne (.inl rfl) (by decide) ha.args hb.args hcancel
    exact ⟨String.toList_inj.1 hname, hargs⟩
  · exact absurd (h ▸ hargs) hb.name
  · exact absurd (h ▸ hargs) ha.name
  · rw [List.isEmpty_iff.1 haEmpty, List.isEmpty_iff.1 hbEmpty]
    exact ⟨String.toList_inj.1 h, rfl⟩

/-- A full name is read from its end: first the result, then the parameters.  The owner ends at the
first colon. -/
theorem alike_of_fullChars_eq {a b : Method} (ha : a.Readable D) (hb : b.Readable D)
    (h : a.fullChars = b.fullChars) : a.Alike b := by
  have hsplit : ∀ m : Method, m.fullChars =
      (m.chars ++ ['('] ++ Ty.charsAll m.signature.parameters ++ [')']) ++
        m.signature.result.chars := by
    intro m
    simp [fullChars]
  rw [hsplit, hsplit] at h
  obtain ⟨hbefore, hresult⟩ := (hD.readsBack ha.result).chars hb.result
    (opened_concat (.inr (.inr (by decide))) _) (opened_concat (.inr (.inr (by decide))) _) h
  obtain ⟨hchars, hparameters⟩ := hD.append_charsAll_inj hne (.inr (.inr (by decide))) (by decide)
    ha.parameters hb.parameters (List.append_cancel_right hbefore)
  rw [chars_eq, chars_eq] at hchars
  obtain ⟨howner, hrest⟩ := append_cons_inj (hD.colon_notMem_chars ha.owner)
    (hD.colon_notMem_chars hb.owner) hchars
  obtain ⟨hname, hargs⟩ := name_args_inj hD hne ha hb (List.cons.inj hrest).2
  obtain ⟨-, howner⟩ := (hD.readsBack ha.owner).chars hb.owner (opened_nil _) (opened_nil _) howner
  exact ⟨howner, hname, hargs, hparameters, hresult⟩

end Method

end AheadOfTime
