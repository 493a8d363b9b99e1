import Mathlib.Data.List.Induction
import AheadOfTime.Proofs.Ty.Canon
import AheadOfTime.Ty.Name

/-!
# Names tell types apart

The name of a type is read from right to left.  Its last character tells whether the type is applied
to arguments, an array, a pointer or a reference to a location; otherwise the name goes back to the
nearest character that can stand before a name.  This works as long as declared names are free of
the characters that structure names.
-/

set_option autoImplicit false

namespace AheadOfTime

/-! ## Words -/

/-- A text that is empty or ends with a given kind of character. -/
def Opened (p : Char → Prop) (l : List Char) : Prop :=
  ∀ c, l.getLast? = some c → p c

/-- A name can stand at the beginning of a text. -/
theorem opened_nil (p : Char → Prop) : Opened p [] := by
  intro c hc
  cases hc

/-- A name can stand after a text whose last character can stand before names. -/
theorem opened_concat {p : Char → Prop} {c : Char} (hc : p c) (l : List Char) :
    Opened p (l ++ [c]) := by
  intro d hd
  rw [List.getLast?_concat] at hd
  cases hd
  exact hc

/-- The last character of a text is the one that was put last. -/
theorem getLast?_append_concat (l x : List Char) (c : Char) :
    (l ++ (x ++ [c])).getLast? = some c := by
  rw [← List.append_assoc, List.getLast?_concat]

/-- What two texts end with in common can be taken off. -/
theorem append_cancel_last {l k x y z : List Char} (h : l ++ (x ++ z) = k ++ (y ++ z)) :
    l ++ x = k ++ y := by
  rw [← List.append_assoc, ← List.append_assoc k] at h
  exact List.append_cancel_right h

/-- A word goes back to the nearest character that can stand before a word. -/
theorem append_word_inj {p : Char → Prop} {l k w v : List Char} (hl : Opened p l) (hk : Opened p k)
    (hw : ∀ c ∈ w, ¬ p c) (hv : ∀ c ∈ v, ¬ p c) (h : l ++ w = k ++ v) : l = k ∧ w = v := by
  rcases List.append_eq_append_iff.1 h with ⟨x, rfl, rfl⟩ | ⟨x, rfl, rfl⟩
  · cases hx : x.getLast? with
    | none =>
      rw [List.getLast?_eq_none_iff.1 hx]
      simp
    | some c =>
      have hlast : (l ++ x).getLast? = some c := by rw [List.getLast?_append, hx]; rfl
      exact absurd (hk c hlast) (hw c (List.mem_append_left _ (List.mem_of_getLast? hx)))
  · cases hx : x.getLast? with
    | none =>
      rw [List.getLast?_eq_none_iff.1 hx]
      simp
    | some c =>
      have hlast : (k ++ x).getLast? = some c := by rw [List.getLast?_append, hx]; rfl
      exact absurd (hl c hlast) (hv c (List.mem_append_left _ (List.mem_of_getLast? hx)))

namespace Ty

/-! ## The parts of a name -/

/-- The name of a type that is applied to a further argument, up to that argument. -/
def head (t : Ty) : List Char :=
  t.charsThen true []

/-- What follows a name does not change how the name is written. -/
theorem charsThen_append (t : Ty) (applied : Bool) (rest : List Char) :
    t.charsThen applied rest = t.charsThen applied [] ++ rest := by
  induction t generalizing applied rest with
  | decl d =>
    show d.fullName.toList ++ (if applied then '<' :: rest else rest) =
      d.fullName.toList ++ (if applied then ['<'] else []) ++ rest
    cases applied <;> simp
  | app f a ihf iha =>
    show f.charsThen true (a.charsThen false ((if applied then ',' else '>') :: rest)) =
      f.charsThen true (a.charsThen false [if applied then ',' else '>']) ++ rest
    rw [ihf, iha, ihf _ (a.charsThen _ _), iha _ [_]]
    simp
  | array e r ih =>
    show e.charsThen false (rankChars r ++ rest) = e.charsThen false (rankChars r ++ []) ++ rest
    rw [ih, ih _ (rankChars r ++ [])]
    simp
  | pointer t ih =>
    show t.charsThen false ('*' :: rest) = t.charsThen false ['*'] ++ rest
    rw [ih, ih _ ['*']]
    simp
  | byRef t ih =>
    show t.charsThen false ('&' :: rest) = t.charsThen false ['&'] ++ rest
    rw [ih, ih _ ['&']]
    simp
  | param k i =>
    show paramMarks k ++ Nat.toDigits 10 i ++ rest = paramMarks k ++ Nat.toDigits 10 i ++ [] ++ rest
    rw [List.append_nil]
  | canon =>
    show canonName.toList ++ rest = canonName.toList ++ [] ++ rest
    rw [List.append_nil]

/-- A declaration is written with its full name. -/
theorem chars_decl (d : TypeDecl) : (decl d).chars = d.fullName.toList :=
  List.append_nil _

/-- An applied type is written with its arguments between angle brackets. -/
theorem chars_app (f a : Ty) : (app f a).chars = f.head ++ a.chars ++ ['>'] := by
  show f.charsThen true (a.charsThen false ['>']) = _
  rw [charsThen_append, charsThen_append a, ← List.append_assoc]
  rfl

/-- An array is written with its elements first and brackets after them. -/
theorem chars_array (e : Ty) (r : Option Nat) : (array e r).chars = e.chars ++ rankChars r := by
  show e.charsThen false (rankChars r ++ []) = _
  rw [charsThen_append, List.append_nil]
  rfl

/-- A pointer is written with a star after what it points to. -/
theorem chars_pointer (t : Ty) : (pointer t).chars = t.chars ++ ['*'] :=
  charsThen_append t false ['*']

/-- A reference to a location is written with an ampersand after the type. -/
theorem chars_byRef (t : Ty) : (byRef t).chars = t.chars ++ ['&'] :=
  charsThen_append t false ['&']

/-- A parameter is written with the marks of its kind and its number. -/
theorem chars_param (k : ParamKind) (i : Nat) :
    (param k i).chars = paramMarks k ++ Nat.toDigits 10 i :=
  List.append_nil _

/-- The placeholder is written with a name of its own. -/
theorem chars_canon : canon.chars = canonName.toList :=
  List.append_nil _

/-- Before its first argument, a declaration is followed by an opening bracket. -/
theorem head_decl (d : TypeDecl) : (decl d).head = d.fullName.toList ++ ['<'] := rfl

/-- Before a further argument, an applied type is followed by a comma. -/
theorem head_app (f a : Ty) : (app f a).head = f.head ++ a.chars ++ [','] := by
  show f.charsThen true (a.charsThen false [',']) = _
  rw [charsThen_append, charsThen_append a, ← List.append_assoc]
  rfl

/-! ## Reading from the right -/

/-- The characters that structure the names of types. -/
def marks : List Char := ['<', '>', '[', ']', ',', '*', '&', '!']

/-- Declarations that can be told apart by their names, also where names stand after some further
characters: a name has none of these and none of the structuring ones, and it is not the name of the
placeholder. -/
structure NamesApart (further : List Char) (D : TypeDecl → Prop) : Prop where
  plain : ∀ d, D d → ∀ c ∈ d.fullName.toList, c ∉ marks ∧ c ∉ further
  ne_canonName : ∀ d, D d → d.fullName ≠ canonName
  unique : ∀ d e, D d → D e → d.fullName = e.fullName → d = e
  -- what can stand inside a name or end one cannot stand before one
  further_plain : ∀ c ∈ further, c.isAlphanum = false ∧ c ∉ ['.', '_', '!', '>', ']', '*', '&']

/-- The characters that can stand before the name of a type. -/
def Opens (further : List Char) (c : Char) : Prop :=
  c = '<' ∨ c = ',' ∨ c ∈ further

/-- The character that a name ends with if the type is built from others. -/
def closing? : Ty → Option Char
  | .app _ _ => some '>'
  | .array _ _ => some ']'
  | .pointer _ => some '*'
  | .byRef _ => some '&'
  | _ => none

/-- The brackets of an array end with a closing one. -/
theorem getLast?_rankChars (r : Option Nat) : (rankChars r).getLast? = some ']' := by
  unfold rankChars
  split
  · rfl
  · rfl
  · rw [← List.cons_append]
    exact List.getLast?_concat

/-- The name of a type that is built from others ends with the character for it. -/
theorem getLast?_of_closing? {t : Ty} {c : Char} (h : t.closing? = some c) (l : List Char) :
    (l ++ t.chars).getLast? = some c := by
  cases t with
  | app f a =>
    cases h
    rw [chars_app, getLast?_append_concat]
  | array e r =>
    cases h
    rw [chars_array, ← List.append_assoc, List.getLast?_append, getLast?_rankChars]
    rfl
  | pointer t =>
    cases h
    rw [chars_pointer, getLast?_append_concat]
  | byRef t =>
    cases h
    rw [chars_byRef, getLast?_append_concat]
  | _ => cases h

/-- The name of the placeholder has letters, dots and underscores only. -/
theorem mem_canonName {c : Char} (h : c ∈ canonName.toList) :
    c.isAlphanum = true ∨ c = '.' ∨ c = '_' := by
  have hchars : canonName.toList =
      ['S', 'y', 's', 't', 'e', 'm', '.', '_', '_', 'C', 'a', 'n', 'o', 'n'] := by
    simp [canonName]
  have hall : ∀ c ∈ canonName.toList, c.isAlphanum = true ∨ c = '.' ∨ c = '_' := by
    rw [hchars]
    simp
  exact hall c h

/-- What stands between the brackets of an array. -/
def rankBody : Option Nat → List Char
  | none => []
  | some 1 => ['*']
  | some r => List.replicate (r - 1) ','

/-- The brackets of an array enclose what tells its rank. -/
theorem rankChars_eq (r : Option Nat) : rankChars r = ['['] ++ rankBody r ++ [']'] := by
  match r with
  | none => rfl
  | some 0 => rfl
  | some 1 => rfl
  | some (n + 2) => rfl

/-- What stands between the brackets tells the rank, as no array has rank zero. -/
theorem rankBody_inj {r s : Option Nat} (hr : r ≠ some 0) (hs : s ≠ some 0)
    (h : rankBody r = rankBody s) : r = s := by
  match r, s with
  | none, none => rfl
  | none, some 1 => cases h
  | none, some (n + 2) => cases h
  | some 1, none => cases h
  | some 1, some 1 => rfl
  | some 1, some (n + 2) => cases h
  | some (m + 2), none => cases h
  | some (m + 2), some 1 => cases h
  | some (m + 2), some (n + 2) =>
    have hlength := congrArg List.length h
    simp only [rankBody, List.length_replicate] at hlength
    rw [show m = n by omega]
  | some 0, _ => exact absurd rfl hr
  | _, some 0 => exact absurd rfl hs

/-- Brackets at the end of a text can be taken off, and tell the rank. -/
theorem append_rankChars_inj {l k : List Char} {r s : Option Nat} (hr : r ≠ some 0)
    (hs : s ≠ some 0) (h : l ++ rankChars r = k ++ rankChars s) : l = k ∧ r = s := by
  -- what stands between the brackets is free of opening brackets
  have hbody : ∀ r, ∀ c ∈ rankBody r, ¬ c = '[' := by
    intro r c hc
    unfold rankBody at hc
    split at hc
    · cases hc
    · rw [List.mem_singleton.1 hc]
      decide
    · rw [List.eq_of_mem_replicate hc]
      decide
  rw [rankChars_eq, rankChars_eq] at h
  have hopened : ∀ l, Opened (fun c => c = '[') (l ++ ['[']) := opened_concat rfl
  have hbodies := append_cancel_last h
  rw [← List.append_assoc, ← List.append_assoc k] at hbodies
  obtain ⟨hopen, hsame⟩ := append_word_inj (hopened l) (hopened k) (hbody r) (hbody s) hbodies
  exact ⟨List.append_cancel_right hopen, rankBody_inj hr hs hsame⟩

/-- The name of a parameter tells its kind and its number. -/
theorem chars_param_inj {k k' : ParamKind} {i i' : Nat}
    (h : (param k i).chars = (param k' i').chars) : k = k' ∧ i = i' := by
  have hopened : ∀ k, Opened (fun c => c = '!') (paramMarks k) := by
    intro k
    cases k
    · exact opened_concat (p := fun c => c = '!') rfl []
    · exact opened_concat (p := fun c => c = '!') rfl ['!']
  have hdigits : ∀ i, ∀ c ∈ Nat.toDigits 10 i, ¬ c = '!' := by
    rintro i c hc rfl
    cases Nat.isDigit_of_mem_toDigits (by decide) (by decide) hc
  rw [chars_param, chars_param] at h
  obtain ⟨hmarks, hnumber⟩ :=
    append_word_inj (hopened k) (hopened k') (hdigits i) (hdigits i') h
  refine ⟨?_, ?_⟩
  · cases k <;> cases k' <;> cases hmarks <;> rfl
  · rw [← @Nat.ofDigitChars_ten_toDigits i, hnumber, Nat.ofDigitChars_ten_toDigits]

section Reading

variable {further : List Char} {D : TypeDecl → Prop}

/-- Letters and figures neither stand before a name nor close one. -/
theorem NamesApart.not_opens_of_isAlphanum (hD : NamesApart further D) {c : Char}
    (hc : c.isAlphanum = true) : ¬ Opens further c ∧ c ∉ ['>', ']', '*', '&'] := by
  refine ⟨?_, ?_⟩
  · rintro (rfl | rfl | hfurther)
    · cases hc
    · cases hc
    · rw [(hD.further_plain c hfurther).1] at hc
      cases hc
  · intro hmem
    have hnone : ∀ c ∈ ['>', ']', '*', '&'], c.isAlphanum = false := by simp
    rw [hnone c hmem] at hc
    cases hc

/-- The name of a type that is not built from others is a word, and it does not end as if it were
built. -/
theorem NamesApart.word_of_closing?_eq_none (hD : NamesApart further D) {t : Ty}
    (ht : t.FormedFrom D) (h : t.closing? = none) :
    ∀ c ∈ t.chars, ¬ Opens further c ∧ c ∉ ['>', ']', '*', '&'] := by
  have hother : ∀ c ∈ ['.', '_', '!'], ¬ Opens further c ∧ c ∉ ['>', ']', '*', '&'] := by
    intro c hc
    have hdecide : ∀ c ∈ ['.', '_', '!'], c ≠ '<' ∧ c ≠ ',' ∧ c ∉ ['>', ']', '*', '&'] ∧
        c ∈ ['.', '_', '!', '>', ']', '*', '&'] := by
      simp
    obtain ⟨hlt, hcomma, hend, hmem⟩ := hdecide c hc
    refine ⟨?_, hend⟩
    rintro (h | h | h)
    · exact hlt h
    · exact hcomma h
    · exact (hD.further_plain c h).2 hmem
  cases t with
  | decl d =>
    intro c hc
    rw [chars_decl] at hc
    obtain ⟨hmarks, hfurther⟩ := hD.plain d ht c hc
    simp only [marks, List.mem_cons, List.not_mem_nil, or_false, not_or] at hmarks
    simp [Opens, hmarks, hfurther]
  | param k i =>
    intro c hc
    rw [chars_param] at hc
    rcases List.mem_append.1 hc with hc | hc
    · have hmark : c = '!' := by cases k <;> simpa [paramMarks] using hc
      exact hother c (by simp [hmark])
    · have hdigit := Nat.isDigit_of_mem_toDigits (by decide) (by decide) hc
      exact hD.not_opens_of_isAlphanum (by simp [Char.isAlphanum, hdigit])
  | canon =>
    intro c hc
    rw [chars_canon] at hc
    rcases mem_canonName hc with hc | rfl | rfl
    · exact hD.not_opens_of_isAlphanum hc
    · exact hother _ (by simp)
    · exact hother _ (by simp)
  | _ => cases h

/-- The last character tells how a type is built. -/
theorem NamesApart.closing?_eq (hD : NamesApart further D) {t u : Ty} (ht : t.FormedFrom D)
    (hu : u.FormedFrom D) {l k : List Char} (hl : Opened (Opens further) l)
    (hk : Opened (Opens further) k) (h : l ++ t.chars = k ++ u.chars) :
    t.closing? = u.closing? := by
  -- a word that follows an opening character does not end with a closing one
  have hword : ∀ {t : Ty} {l : List Char} {c : Char}, t.FormedFrom D → Opened (Opens further) l →
      t.closing? = none → (l ++ t.chars).getLast? = some c → c ∉ ['>', ']', '*', '&'] := by
    intro t l c ht hl hnone hlast
    rw [List.getLast?_append] at hlast
    cases hchars : t.chars.getLast? with
    | some d =>
      rw [hchars] at hlast
      cases hlast
      exact (hD.word_of_closing?_eq_none ht hnone c (List.mem_of_getLast? hchars)).2
    | none =>
      rw [hchars] at hlast
      rcases hl c hlast with rfl | rfl | hfurther
      · decide
      · decide
      · have hplain := (hD.further_plain c hfurther).2
        simp only [List.mem_cons, List.not_mem_nil, or_false, not_or] at hplain ⊢
        exact hplain.2.2.2
  have hclosing : ∀ {t : Ty} {c : Char}, t.closing? = some c → c ∈ ['>', ']', '*', '&'] := by
    intro t c h
    cases t <;> cases h <;> decide
  cases htc : t.closing? with
  | none =>
    cases huc : u.closing? with
    | none => rfl
    | some d =>
      have hlast := getLast?_of_closing? huc k
      rw [← h] at hlast
      exact absurd (hclosing huc) (hword ht hl htc hlast)
  | some c =>
    have hlast := getLast?_of_closing? htc l
    cases huc : u.closing? with
    | none =>
      rw [h] at hlast
      exact absurd (hclosing htc) (hword hu hk huc hlast)
    | some d =>
      rw [h, getLast?_of_closing? huc k] at hlast
      exact hlast.symm

/-- Types that are not built from others are told apart by their names. -/
theorem NamesApart.eq_of_closing?_eq_none (hD : NamesApart further D) {t u : Ty}
    (ht : t.FormedFrom D) (hu : u.FormedFrom D) (htc : t.closing? = none) (huc : u.closing? = none)
    (h : t.chars = u.chars) : t = u := by
  -- parameters are told from declarations and from the placeholder by their mark
  have hmark : ∀ {k : ParamKind} {i : Nat}, '!' ∈ (param k i).chars := by
    intro k i
    rw [chars_param]
    cases k <;> simp [paramMarks]
  have hdecl : ∀ {d : TypeDecl}, D d → '!' ∉ (decl d).chars := by
    intro d hd hmem
    rw [chars_decl] at hmem
    exact (hD.plain d hd '!' hmem).1 (by decide)
  have hcanon : '!' ∉ canon.chars := by
    intro hmem
    rw [chars_canon] at hmem
    rcases mem_canonName hmem with h | h | h <;> cases h
  cases t with
  | decl d =>
    cases u with
    | decl e =>
      rw [chars_decl, chars_decl, String.toList_inj] at h
      rw [hD.unique d e ht hu h]
    | param k i => exact absurd (h ▸ hmark) (hdecl ht)
    | canon =>
      rw [chars_decl, chars_canon, String.toList_inj] at h
      exact absurd h (hD.ne_canonName d ht)
    | _ => cases huc
  | param k i =>
    cases u with
    | decl e => exact absurd (h ▸ hmark) (hdecl hu)
    | param k' i' =>
      obtain ⟨rfl, rfl⟩ := chars_param_inj h
      rfl
    | canon => exact absurd (h ▸ hmark) hcanon
    | _ => cases huc
  | canon =>
    cases u with
    | decl e =>
      rw [chars_decl, chars_canon, String.toList_inj] at h
      exact absurd h.symm (hD.ne_canonName e hu)
    | param k i => exact absurd (h ▸ hmark) hcanon
    | canon => rfl
    | _ => cases huc
  | _ => cases htc

/-- A type that is not built from others can be read back from the end of a text. -/
theorem NamesApart.append_inj_of_closing?_eq_none (hD : NamesApart further D) {t u : Ty}
    (ht : t.FormedFrom D) (hu : u.FormedFrom D) (htc : t.closing? = none) {l k : List Char}
    (hl : Opened (Opens further) l) (hk : Opened (Opens further) k)
    (h : l ++ t.chars = k ++ u.chars) : l = k ∧ t = u := by
  have huc : u.closing? = none := by rw [← hD.closing?_eq ht hu hl hk h, htc]
  obtain ⟨hlk, hchars⟩ := append_word_inj hl hk
    (fun c hc => (hD.word_of_closing?_eq_none ht htc c hc).1)
    (fun c hc => (hD.word_of_closing?_eq_none hu huc c hc).1) h
  exact ⟨hlk, hD.eq_of_closing?_eq_none ht hu htc huc hchars⟩

/-- An argument can stand after the head of a type that it is applied to. -/
theorem opened_head {t : Ty} (ht : t.decl?.isSome = true) (l : List Char) :
    Opened (Opens further) (l ++ t.head) := by
  cases t with
  | decl d =>
    rw [head_decl, ← List.append_assoc]
    exact opened_concat (.inl rfl) _
  | app f a =>
    rw [head_app, ← List.append_assoc]
    exact opened_concat (.inr (.inl rfl)) _
  | _ => cases ht

/-- The name of a type goes back to the nearest character outside of it that can stand before a
name, and it tells the type.  So does the name of a type that is applied to a further argument. -/
structure ReadsBack (further : List Char) (D : TypeDecl → Prop) (t : Ty) : Prop where
  chars : ∀ {u : Ty} {l k : List Char}, u.FormedFrom D → Opened (Opens further) l →
    Opened (Opens further) k → l ++ t.chars = k ++ u.chars → l = k ∧ t = u
  head : t.decl?.isSome = true → ∀ {u : Ty} {l k : List Char}, u.FormedFrom D →
    u.decl?.isSome = true → Opened (Opens further) l → Opened (Opens further) k →
    l ++ t.head = k ++ u.head → l = k ∧ t = u

/-- A first argument is never taken for a further one. -/
theorem append_head_decl_ne {d : TypeDecl} {f a : Ty} {l k : List Char} :
    l ++ (decl d).head ≠ k ++ (app f a).head := by
  intro h
  have hlast := congrArg List.getLast? h
  rw [head_decl, head_app, getLast?_append_concat, getLast?_append_concat] at hlast
  cases hlast

section Constructors

variable (hD : NamesApart further D)
include hD

/-- Declarations can be read back. -/
theorem NamesApart.readsBack_decl {d : TypeDecl} (ht : (decl d).FormedFrom D) :
    ReadsBack further D (decl d) where
  chars hu := hD.append_inj_of_closing?_eq_none ht hu rfl
  head := by
    intro _ u l k hu hdecl hl hk h
    cases u with
    | decl e =>
      rw [head_decl, head_decl, ← chars_decl, ← chars_decl] at h
      exact hD.append_inj_of_closing?_eq_none ht hu rfl hl hk (append_cancel_last h)
    | app g b => exact absurd h append_head_decl_ne
    | _ => cases hdecl

/-- Applied types can be read back if their parts can. -/
theorem NamesApart.readsBack_app {f a : Ty} (ht : (app f a).FormedFrom D)
    (hf : ReadsBack further D f) (ha : ReadsBack further D a) :
    ReadsBack further D (app f a) := by
  -- the last argument is read first, and then what it is applied to
  have hparts : ∀ {g b : Ty} {l k : List Char}, (app g b).FormedFrom D →
      Opened (Opens further) l → Opened (Opens further) k →
      l ++ (f.head ++ a.chars) = k ++ (g.head ++ b.chars) → l = k ∧ app f a = app g b := by
    rintro g b l k ⟨hg, hgD, hbD⟩ hl hk h
    rw [← List.append_assoc, ← List.append_assoc] at h
    obtain ⟨hheads, rfl⟩ := ha.chars hbD (opened_head ht.1 l) (opened_head hg k) h
    obtain ⟨rfl, rfl⟩ := hf.head ht.1 hgD hg hl hk hheads
    exact ⟨rfl, rfl⟩
  constructor
  · intro u l k hu hl hk h
    have hclosing := hD.closing?_eq ht hu hl hk h
    cases u with
    | app g b =>
      rw [chars_app, chars_app] at h
      exact hparts hu hl hk (append_cancel_last h)
    | _ => cases hclosing
  · intro _ u l k hu hdecl hl hk h
    cases u with
    | decl e => exact absurd h.symm append_head_decl_ne
    | app g b =>
      rw [head_app, head_app] at h
      exact hparts hu hl hk (append_cancel_last h)
    | _ => cases hdecl

/-- Arrays can be read back if their elements can. -/
theorem NamesApart.readsBack_array {e : Ty} {r : Option Nat} (ht : (array e r).FormedFrom D)
    (he : ReadsBack further D e) : ReadsBack further D (array e r) where
  head hdecl := by cases hdecl
  chars := by
    intro u l k hu hl hk h
    have hclosing := hD.closing?_eq ht hu hl hk h
    cases u with
    | array e' r' =>
      rw [chars_array, chars_array, ← List.append_assoc, ← List.append_assoc k] at h
      obtain ⟨helements, rfl⟩ := append_rankChars_inj ht.1 hu.1 h
      obtain ⟨rfl, rfl⟩ := he.chars hu.2 hl hk helements
      exact ⟨rfl, rfl⟩
    | _ => cases hclosing

/-- Pointers can be read back if what they point to can. -/
theorem NamesApart.readsBack_pointer {t : Ty} (hpointer : (pointer t).FormedFrom D)
    (ht : ReadsBack further D t) : ReadsBack further D (pointer t) where
  head hdecl := by cases hdecl
  chars := by
    intro u l k hu hl hk h
    have hclosing := hD.closing?_eq hpointer hu hl hk h
    cases u with
    | pointer u =>
      rw [chars_pointer, chars_pointer] at h
      obtain ⟨rfl, rfl⟩ := ht.chars (u := u) hu hl hk (append_cancel_last h)
      exact ⟨rfl, rfl⟩
    | _ => cases hclosing

/-- References to locations can be read back if their types can. -/
theorem NamesApart.readsBack_byRef {t : Ty} (hbyRef : (byRef t).FormedFrom D)
    (ht : ReadsBack further D t) : ReadsBack further D (byRef t) where
  head hdecl := by cases hdecl
  chars := by
    intro u l k hu hl hk h
    have hclosing := hD.closing?_eq hbyRef hu hl hk h
    cases u with
    | byRef u =>
      rw [chars_byRef, chars_byRef] at h
      obtain ⟨rfl, rfl⟩ := ht.chars (u := u) hu hl hk (append_cancel_last h)
      exact ⟨rfl, rfl⟩
    | _ => cases hclosing

/-- If declared names can be told apart, all types can be read back. -/
theorem NamesApart.readsBack {t : Ty} (ht : t.FormedFrom D) : ReadsBack further D t := by
  induction t with
  | decl d => exact hD.readsBack_decl ht
  | app f a ihf iha => exact hD.readsBack_app ht (ihf ht.2.1) (iha ht.2.2)
  | array e r ihe => exact hD.readsBack_array ht (ihe ht.2)
  | pointer t ih => exact hD.readsBack_pointer ht (ih ht)
  | byRef t ih => exact hD.readsBack_byRef ht (ih ht)
  | param k i =>
    exact ⟨fun hu => hD.append_inj_of_closing?_eq_none ht hu rfl, fun hdecl => by cases hdecl⟩
  | canon =>
    exact ⟨fun hu => hD.append_inj_of_closing?_eq_none ht hu rfl, fun hdecl => by cases hdecl⟩

end Constructors

/-! ## Lists of names -/

/-- What stands before the last name in a list, after other names. -/
def charsBefore (ts : List Ty) : List Char :=
  if ts.isEmpty then [] else charsAll ts ++ [',']

/-- The last name of a list stands after the others and a comma. -/
theorem charsAll_concat (ts : List Ty) (t : Ty) :
    charsAll (ts ++ [t]) = charsBefore ts ++ t.chars := by
  induction ts with
  | nil => simp [charsAll, charsBefore]
  | cons u ts ih =>
    cases ts with
    | nil => simp [charsAll, charsBefore]
    | cons v ts =>
      simp only [charsAll, charsBefore, List.isEmpty_cons, Bool.false_eq_true, if_false,
        List.cons_append, List.map_cons, List.map_append, List.intercalate_cons_cons] at ih ⊢
      rw [ih]
      simp

/-- No name ends with a character that can stand before names. -/
theorem NamesApart.getLast?_chars (hD : NamesApart further D) {t : Ty} (ht : t.FormedFrom D)
    {c : Char} (hc : t.chars.getLast? = some c) : ¬ Opens further c := by
  cases hclosing : t.closing? with
  | none => exact (hD.word_of_closing?_eq_none ht hclosing c (List.mem_of_getLast? hc)).1
  | some d =>
    have hlast := getLast?_of_closing? hclosing []
    rw [List.nil_append, hc] at hlast
    cases hlast
    have hend : c ∈ ['>', ']', '*', '&'] := by cases t <;> cases hclosing <;> decide
    rintro (rfl | rfl | hfurther)
    · exact absurd hend (by decide)
    · exact absurd hend (by decide)
    · have hplain := (hD.further_plain c hfurther).2
      simp only [List.mem_cons, List.not_mem_nil, or_false, not_or] at hplain hend
      grind

/-- No name is empty, unless that of a declaration is. -/
theorem chars_ne_nil (hne : ∀ d, D d → d.fullName ≠ "") {t : Ty} (ht : t.FormedFrom D) :
    t.chars ≠ [] := by
  cases hclosing : t.closing? with
  | some c =>
    intro h
    have hlast := getLast?_of_closing? hclosing []
    rw [h] at hlast
    cases hlast
  | none =>
    cases t with
    | decl d =>
      rw [chars_decl]
      intro h
      exact hne d ht (String.toList_eq_nil_iff.1 h)
    | param k i =>
      rw [chars_param]
      intro h
      exact Nat.toDigits_ne_nil (List.append_eq_nil_iff.1 h).2
    | canon =>
      rw [chars_canon]
      simp [canonName]
    | _ => cases hclosing

/-- The last name of a list can stand after the others. -/
theorem opened_charsBefore {o : Char} (ho : Opens further o) (l : List Char) (ts : List Ty) :
    Opened (Opens further) (l ++ [o] ++ charsBefore ts) := by
  unfold charsBefore
  split
  · rw [List.append_nil]
    exact opened_concat ho l
  · rw [← List.append_assoc]
    exact opened_concat (.inr (.inl rfl)) _

/-- A list of names goes back to the character before it. -/
theorem NamesApart.append_charsAll_inj (hD : NamesApart further D)
    (hne : ∀ d, D d → d.fullName ≠ "") {o : Char} (ho : Opens further o) (hcomma : o ≠ ',')
    {ts us : List Ty} (hts : ∀ t ∈ ts, t.FormedFrom D) (hus : ∀ u ∈ us, u.FormedFrom D)
    {l k : List Char} (h : l ++ [o] ++ charsAll ts = k ++ [o] ++ charsAll us) :
    l = k ∧ ts = us := by
  -- if there is no name at all, the last character is not that of a name
  have hempty : ∀ {l k : List Char} {us : List Ty} {u : Ty}, u.FormedFrom D →
      l ++ [o] ≠ k ++ [o] ++ charsAll (us ++ [u]) := by
    intro l k us u hu h
    obtain ⟨c, hc⟩ := Option.ne_none_iff_exists'.1
      (mt List.getLast?_eq_none_iff.1 (chars_ne_nil hne hu))
    have hlast := congrArg List.getLast? h
    rw [charsAll_concat, ← List.append_assoc, List.getLast?_concat, List.getLast?_append, hc] at hlast
    cases hlast
    exact hD.getLast?_chars hu hc ho
  induction ts using List.reverseRecOn generalizing us l k with
  | nil =>
    cases us using List.reverseRecOn with
    | nil => exact ⟨by simpa using h, rfl⟩
    | append_singleton us u _ =>
      rw [show charsAll [] = [] from rfl, List.append_nil] at h
      exact absurd h (hempty (hus u (by simp)))
  | append_singleton ts t ih =>
    cases us using List.reverseRecOn with
    | nil =>
      rw [show charsAll [] = [] from rfl, List.append_nil] at h
      exact absurd h.symm (hempty (hts t (by simp)))
    | append_singleton us u _ =>
      rw [charsAll_concat, charsAll_concat, ← List.append_assoc, ← List.append_assoc (k ++ [o])] at h
      obtain ⟨hbefore, rfl⟩ := (hD.readsBack (hts t (by simp))).chars (hus u (by simp))
        (opened_charsBefore ho l ts) (opened_charsBefore ho k us) h
      -- a comma tells whether there are more names
      cases htsEmpty : ts.isEmpty <;> cases husEmpty : us.isEmpty <;>
        simp only [charsBefore, htsEmpty, husEmpty, if_true, if_false, Bool.false_eq_true,
          List.append_nil] at hbefore
      · obtain ⟨rfl, rfl⟩ := ih (fun t ht => hts t (by simp [ht])) (fun u hu => hus u (by simp [hu]))
          (append_cancel_last hbefore)
        exact ⟨rfl, rfl⟩
      · have hlast := congrArg List.getLast? hbefore
        rw [getLast?_append_concat, List.getLast?_concat] at hlast
        exact absurd (Option.some.inj hlast).symm hcomma
      · have hlast := congrArg List.getLast? hbefore
        rw [getLast?_append_concat, List.getLast?_concat] at hlast
        exact absurd (Option.some.inj hlast) hcomma
      · rw [List.isEmpty_iff.1 htsEmpty, List.isEmpty_iff.1 husEmpty]
        exact ⟨List.append_cancel_right hbefore, rfl⟩

end Reading

end Ty

end AheadOfTime
