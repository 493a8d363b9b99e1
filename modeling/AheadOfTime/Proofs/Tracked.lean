import AheadOfTime.Tracked
import AheadOfTime.Proofs.Recorded

/-!
# Outcomes of attempts

An attempt has an outcome: an answer or the reason why there is none.  The outcome does not depend
on the catalog, and attempts that are made one after the other have the outcome that their parts
have one after the other.  The lemmas here take attempts apart in that way.
-/

set_option autoImplicit false

namespace AheadOfTime

variable {α β : Type}

/-- The outcome of an attempt. -/
def outcome (q : Attempt α) : Except Diagnostic α :=
  q.run.value

/-- An attempt that only returns a value succeeds. -/
@[simp] theorem outcome_pure (a : α) : outcome (pure a : Attempt α) = .ok a := rfl

/-- The outcome of two attempts in a row is made of their outcomes. -/
@[simp] theorem outcome_bind (q : Attempt α) (f : α → Attempt β) :
    outcome (q >>= f) = outcome q >>= fun a => outcome (f a) :=
  Recorded.value_run_bind q f

/-- The outcome of an attempt with a changed result is its outcome, changed. -/
@[simp] theorem outcome_map (f : α → β) (q : Attempt α) :
    outcome (f <$> q) = f <$> outcome q :=
  Recorded.value_run_map f q

/-- A computation that cannot fail succeeds as an attempt. -/
@[simp] theorem outcome_liftM (q : Tracked α) : outcome (liftM q : Attempt α) = .ok q.value := rfl

/-- The outcome of a case distinction is that of the case that applies. -/
@[simp] theorem outcome_ite (c : Prop) [Decidable c] (q r : Attempt α) :
    outcome (if c then q else r) = if c then outcome q else outcome r := by
  split <;> rfl

/-- After a success, what follows is done. -/
@[simp] theorem ok_bind {ε : Type} (a : α) (f : α → Except ε β) :
    (Except.ok a >>= f) = f a := rfl

/-- After a failure, nothing more is done. -/
@[simp] theorem error_bind {ε : Type} (e : ε) (f : α → Except ε β) :
    (Except.error e >>= f) = .error e := rfl

/-- A function acts on the result of a success. -/
@[simp] theorem map_ok {ε : Type} (f : α → β) (a : α) :
    (f <$> (Except.ok a : Except ε α)) = .ok (f a) := rfl

/-- An answer to two attempts comes from an answer to each. -/
theorem bind_eq_ok {ε : Type} {q : Except ε α} {f : α → Except ε β} {b : β} :
    (q >>= f) = .ok b ↔ ∃ a, q = .ok a ∧ f a = .ok b := by
  cases q <;> simp

/-- The first attempt that fails is the reason for failing. -/
theorem bind_eq_error {ε : Type} {q : Except ε α} {f : α → Except ε β} {e : ε} :
    (q >>= f) = .error e ↔ q = .error e ∨ ∃ a, q = .ok a ∧ f a = .error e := by
  cases q <;> simp

/-! ## Traversals of lists -/

/-- The outcome of attempts along a list depends on the single outcomes alone. -/
@[simp] theorem outcome_mapM (f : α → Attempt β) (l : List α) :
    outcome (l.mapM f) = l.mapM fun a => outcome (f a) :=
  Recorded.value_run_mapM f l

/-- The outcome of a filter that has collected some items already depends on the single outcomes
alone. -/
theorem outcome_filterAuxM (p : α → Attempt Bool) (l acc : List α) :
    outcome (l.filterAuxM p acc) = l.filterAuxM (fun a => outcome (p a)) acc := by
  induction l generalizing acc with
  | nil => rfl
  | cons a l ih => simp [List.filterAuxM, ih]

/-- The outcome of a filter depends on the single outcomes alone. -/
@[simp] theorem outcome_filterM (p : α → Attempt Bool) (l : List α) :
    outcome (l.filterM p) = l.filterM fun a => outcome (p a) := by
  simp [List.filterM, outcome_filterAuxM]

/-- The outcome of a search depends on the single outcomes alone. -/
@[simp] theorem outcome_findM? (p : α → Attempt Bool) (l : List α) :
    outcome (l.findM? p) = l.findM? fun a => outcome (p a) := by
  induction l with
  | nil => rfl
  | cons a l ih =>
    simp only [List.findM?, outcome_bind]
    congr 1
    funext b
    cases b
    · exact ih
    · rfl

/-- Whether some item is accepted depends on the single outcomes alone. -/
@[simp] theorem outcome_anyM (p : α → Attempt Bool) (l : List α) :
    outcome (l.anyM p) = l.anyM fun a => outcome (p a) := by
  induction l with
  | nil => rfl
  | cons a l ih =>
    simp only [List.anyM, outcome_bind]
    congr 1
    funext b
    cases b
    · exact ih
    · rfl

/-- If no item is found acceptable, each of them was looked at and refused. -/
theorem anyM_eq_false {p : α → Except Diagnostic Bool} {l : List α}
    (h : l.anyM p = .ok false) : ∀ a ∈ l, p a = .ok false := by
  induction l with
  | nil => simp
  | cons b l ih =>
    rw [List.anyM] at h
    obtain ⟨c, hc, h⟩ := bind_eq_ok.1 h
    cases c with
    | true => cases h
    | false =>
      intro a ha
      rcases List.mem_cons.1 ha with rfl | ha
      · exact hc
      · exact ih h a ha

/-- A list of answers has an answer to each question, and no other. -/
theorem mapM_eq_ok {ε : Type} {f : α → Except ε β} {l : List α} {bs : List β}
    (h : l.mapM f = .ok bs) :
    (∀ a ∈ l, ∃ b ∈ bs, f a = .ok b) ∧ ∀ b ∈ bs, ∃ a ∈ l, f a = .ok b := by
  induction l generalizing bs with
  | nil =>
    cases h
    simp
  | cons a l ih =>
    rw [List.mapM_cons] at h
    obtain ⟨b, hb, h⟩ := bind_eq_ok.1 h
    obtain ⟨rest, hrest, h⟩ := bind_eq_ok.1 h
    cases h
    obtain ⟨hto, hfrom⟩ := ih hrest
    constructor
    · intro a' ha'
      rcases List.mem_cons.1 ha' with rfl | ha'
      · exact ⟨b, List.mem_cons_self, hb⟩
      · obtain ⟨b', hb', hfb'⟩ := hto a' ha'
        exact ⟨b', List.mem_cons_of_mem _ hb', hfb'⟩
    · intro b' hb'
      rcases List.mem_cons.1 hb' with rfl | hb'
      · exact ⟨a, List.mem_cons_self, hb⟩
      · obtain ⟨a', ha', hfa'⟩ := hfrom b' hb'
        exact ⟨a', List.mem_cons_of_mem _ ha', hfa'⟩

/-- If attempts along a list fail, one of them fails in this way. -/
theorem mapM_eq_error {f : α → Except Diagnostic β} {l : List α} {e : Diagnostic}
    (h : l.mapM f = .error e) : ∃ a ∈ l, f a = .error e := by
  induction l with
  | nil => cases h
  | cons a l ih =>
    rw [List.mapM_cons] at h
    rcases bind_eq_error.1 h with ha | ⟨b, -, h⟩
    · exact ⟨a, List.mem_cons_self, ha⟩
    · rcases bind_eq_error.1 h with hl | ⟨rest, -, h⟩
      · obtain ⟨a', ha', hfa'⟩ := ih hl
        exact ⟨a', List.mem_cons_of_mem _ ha', hfa'⟩
      · cases h

/-- The answers to questions that all have one. -/
theorem mapM_ok {f : α → Except Diagnostic β} {g : α → β} {l : List α}
    (h : ∀ a ∈ l, f a = .ok (g a)) : l.mapM f = .ok (l.map g) := by
  induction l with
  | nil => rfl
  | cons a l ih =>
    have ha := h a List.mem_cons_self
    have hl := ih fun a' ha' => h a' (List.mem_cons_of_mem _ ha')
    simp [ha, hl]

/-- A filter that succeeds gives what it had collected and all items that were accepted. -/
theorem filterAuxM_eq_ok {p : α → Except Diagnostic Bool} {l acc bs : List α}
    (h : l.filterAuxM p acc = .ok bs) :
    ∀ a, a ∈ bs ↔ a ∈ acc ∨ a ∈ l ∧ p a = .ok true := by
  induction l generalizing acc with
  | nil =>
    cases h
    simp
  | cons b l ih =>
    rw [List.filterAuxM] at h
    obtain ⟨c, hc, h⟩ := bind_eq_ok.1 h
    intro a
    rw [ih h a]
    cases c with
    | true =>
      simp only [cond_true, List.mem_cons]
      constructor
      · rintro ((rfl | ha) | ⟨ha, hp⟩)
        · exact .inr ⟨.inl rfl, hc⟩
        · exact .inl ha
        · exact .inr ⟨.inr ha, hp⟩
      · rintro (ha | ⟨rfl | ha, hp⟩)
        · exact .inl (.inr ha)
        · exact .inl (.inl rfl)
        · exact .inr ⟨ha, hp⟩
    | false =>
      simp only [cond_false, List.mem_cons]
      constructor
      · rintro (ha | ⟨ha, hp⟩)
        · exact .inl ha
        · exact .inr ⟨.inr ha, hp⟩
      · rintro (ha | ⟨rfl | ha, hp⟩)
        · exact .inl ha
        · rw [hc] at hp
          cases hp
        · exact .inr ⟨ha, hp⟩

/-- A filtered list has the elements for which the answer is yes. -/
theorem filterM_eq_ok {p : α → Except Diagnostic Bool} {l bs : List α}
    (h : l.filterM p = .ok bs) (a : α) : a ∈ bs ↔ a ∈ l ∧ p a = .ok true := by
  rw [List.filterM] at h
  obtain ⟨rev, hrev, h⟩ := bind_eq_ok.1 h
  cases h
  rw [List.mem_reverse, filterAuxM_eq_ok hrev a]
  simp

/-- The same if all questions have an answer. -/
theorem filterM_ok {p : α → Except Diagnostic Bool} {q : α → Bool} {l : List α}
    (h : ∀ a ∈ l, p a = .ok (q a)) : l.filterM p = .ok (l.filter q) := by
  have haux : ∀ acc, l.filterAuxM p acc = .ok ((l.filter q).reverse ++ acc) := by
    induction l with
    | nil => exact fun acc => rfl
    | cons a l ih =>
      intro acc
      rw [List.filterAuxM, h a List.mem_cons_self, ok_bind,
        ih fun b hb => h b (List.mem_cons_of_mem _ hb)]
      cases hq : q a <;> simp [hq]
  rw [List.filterM, haux, ok_bind, List.append_nil, List.reverse_reverse]
  rfl

/-- If a filter fails, the question about one of the items fails in this way. -/
theorem filterM_eq_error {p : α → Except Diagnostic Bool} {l : List α} {e : Diagnostic}
    (h : l.filterM p = .error e) : ∃ a ∈ l, p a = .error e := by
  have haux : ∀ acc, l.filterAuxM p acc = .error e → ∃ a ∈ l, p a = .error e := by
    clear h
    induction l with
    | nil =>
      intro acc h
      cases h
    | cons a l ih =>
      intro acc h
      rw [List.filterAuxM] at h
      rcases bind_eq_error.1 h with ha | ⟨b, -, h⟩
      · exact ⟨a, List.mem_cons_self, ha⟩
      · obtain ⟨a', ha', hp⟩ := ih _ h
        exact ⟨a', List.mem_cons_of_mem _ ha', hp⟩
  rw [List.filterM] at h
  rcases bind_eq_error.1 h with h | ⟨rev, -, h⟩
  · exact haux [] h
  · cases h

/-- If a search finds nothing, each item was looked at and refused. -/
theorem findM?_eq_none {p : α → Except Diagnostic Bool} {l : List α}
    (h : l.findM? p = .ok none) : ∀ a ∈ l, p a = .ok false := by
  induction l with
  | nil => simp
  | cons b l ih =>
    rw [List.findM?] at h
    obtain ⟨c, hc, h⟩ := bind_eq_ok.1 h
    cases c with
    | true => cases h
    | false =>
      intro a ha
      rcases List.mem_cons.1 ha with rfl | ha
      · exact hc
      · exact ih h a ha

/-- The first one of which the answer is yes, if all questions have an answer. -/
theorem findM?_ok {p : α → Except Diagnostic Bool} {q : α → Bool} {l : List α}
    (h : ∀ a ∈ l, p a = .ok (q a)) : l.findM? p = .ok (l.find? q) := by
  induction l with
  | nil => rfl
  | cons a l ih =>
    have hl := ih fun b hb => h b (List.mem_cons_of_mem _ hb)
    rw [List.findM?, h a List.mem_cons_self, ok_bind, List.find?_cons]
    cases q a with
    | true => rfl
    | false => exact hl

/-- If every item is refused, a search finds nothing. -/
theorem findM?_of_forall_eq_false {p : α → Except Diagnostic Bool} {l : List α}
    (h : ∀ a ∈ l, p a = .ok false) : l.findM? p = .ok none := by
  have hnone : l.find? (fun _ => false) = none := List.find?_eq_none.2 fun _ _ => Bool.false_ne_true
  rw [findM?_ok h, hnone]

/-- What a search finds is a member that was accepted. -/
theorem findM?_eq_some {p : α → Except Diagnostic Bool} {l : List α} {a : α}
    (h : l.findM? p = .ok (some a)) : a ∈ l ∧ p a = .ok true := by
  induction l with
  | nil => cases h
  | cons b l ih =>
    rw [List.findM?] at h
    obtain ⟨c, hc, h⟩ := bind_eq_ok.1 h
    cases c with
    | true =>
      cases h
      exact ⟨List.mem_cons_self, hc⟩
    | false => exact ⟨List.mem_cons_of_mem _ (ih h).1, (ih h).2⟩

/-- If a search fails, the question about one of the items fails in this way. -/
theorem findM?_eq_error {p : α → Except Diagnostic Bool} {l : List α} {e : Diagnostic}
    (h : l.findM? p = .error e) : ∃ a ∈ l, p a = .error e := by
  induction l with
  | nil => cases h
  | cons b l ih =>
    rw [List.findM?] at h
    rcases bind_eq_error.1 h with hb | ⟨c, -, h⟩
    · exact ⟨b, List.mem_cons_self, hb⟩
    · cases c with
      | true => cases h
      | false =>
        obtain ⟨a, ha, hp⟩ := ih h
        exact ⟨a, List.mem_cons_of_mem _ ha, hp⟩

/-! ## Canonical forms -/

/-- Two types are the same up to canonical forms if their canonical forms are. -/
@[simp] theorem Ty.value_sameUpToCanon (a b : Ty) :
    (a.sameUpToCanon b).value = (a.canonical == b.canonical) := by
  unfold Ty.sameUpToCanon
  split
  · next h => simp [h]
  · simp

/-- Two methods run on the same code if their canonical forms are the same. -/
@[simp] theorem Method.value_sameUpToCanon (a b : Method) :
    (a.sameUpToCanon b).value = (a.canonical == b.canonical) := by
  unfold Method.sameUpToCanon
  split
  · next h => simp [h]
  · split
    · simp
    · next h =>
      have hne : a.canonical ≠ b.canonical := by
        intro heq
        have hdecl : a.canonical.decl = b.canonical.decl := congrArg Method.decl heq
        exact h hdecl
      simp [hne]

end AheadOfTime
