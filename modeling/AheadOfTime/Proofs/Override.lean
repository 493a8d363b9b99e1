import AheadOfTime.Override

/-!
# Settling overrides

Overrides clash if two of them are of one method and lead to methods of different types.  That is the
only reason for which they cannot be settled.  Since it is about overrides of the same method, those of
some methods can be settled without the others: what comes out is what was settled for these methods
when all were settled together, in the same order.  Settled overrides are of the same methods as
before, and there is one for each.
-/

set_option autoImplicit false

namespace AheadOfTime.Override

variable {settled l k r : List Override}

/-! ## Overrides of some methods -/

/-- The first override of a method is not missed among those of some methods that include it. -/
theorem find?_filter_decl (p : Method → Bool) {m : Method} (hm : p m = true) :
    (settled.filter fun o => p o.decl).find? (·.decl == m) = settled.find? (·.decl == m) := by
  rw [List.find?_filter]
  congr 1
  funext o
  by_cases ho : o.decl = m
  · simp [ho, hm]
  · simp [ho]

/-- Overrides of some methods are settled among themselves as they are among all. -/
theorem settleAfter_filter (p : Method → Bool) (h : settleAfter settled l = .ok r) :
    settleAfter (settled.filter fun o => p o.decl) (l.filter fun o => p o.decl) =
      .ok (r.filter fun o => p o.decl) := by
  induction l generalizing settled with
  | nil =>
    cases h
    rfl
  | cons o rest ih =>
    rw [settleAfter] at h
    by_cases ho : p o.decl = true
    · have hkeep : ∀ k : List Override, ((o :: k).filter fun o => p o.decl) =
          o :: k.filter fun o => p o.decl := fun _ => List.filter_cons_of_pos ho
      rw [hkeep, settleAfter, find?_filter_decl p ho]
      split at h
      · have hrest := ih h
        rwa [List.filter_append, hkeep, List.filter_nil] at hrest
      · split at h
        · next hsame => exact (if_pos hsame).trans (ih h)
        · cases h
    · -- an override of another method changes nothing, whether it counts or not
      have hdrop : ∀ k : List Override, ((o :: k).filter fun o => p o.decl) =
          k.filter fun o => p o.decl := fun _ => List.filter_cons_of_neg ho
      rw [hdrop]
      split at h
      · have hrest := ih h
        rwa [List.filter_append, hdrop, List.filter_nil, List.append_nil] at hrest
      · split at h
        · exact ih h
        · cases h

/-- Overrides of methods with some property are settled as they are among all. -/
theorem settle_filter (p : Method → Bool) (h : settle l = .ok r) :
    settle (l.filter fun o => p o.decl) = .ok (r.filter fun o => p o.decl) :=
  settleAfter_filter p h

/-! ## Clashes -/

/-- Two overrides of one method lead to different types. -/
def Clash (l : List Override) : Prop :=
  ∃ o₁ ∈ l, ∃ o₂ ∈ l, o₁.decl = o₂.decl ∧ o₁.body.owner ≠ o₂.body.owner

/-- Clashes stay where for every override there is one of the same method that leads to the same
type. -/
theorem Clash.mono (h : Clash l)
    (hl : ∀ o ∈ l, ∃ o' ∈ k, o'.decl = o.decl ∧ o'.body.owner = o.body.owner) : Clash k := by
  obtain ⟨o₁, h₁, o₂, h₂, hdecl, howner⟩ := h
  obtain ⟨o₁', h₁', hdecl₁, howner₁⟩ := hl o₁ h₁
  obtain ⟨o₂', h₂', hdecl₂, howner₂⟩ := hl o₂ h₂
  refine ⟨o₁', h₁', o₂', h₂', ?_, ?_⟩
  · rw [hdecl₁, hdecl₂, hdecl]
  · rwa [howner₁, howner₂]

/-- Where there are no overrides, none clash. -/
theorem not_clash_nil : ¬ Clash [] := by
  rintro ⟨o, ho, -⟩
  cases ho

/-- An override of a method for which there is none yet does not clash. -/
theorem not_clash_concat {o : Override} (h : ¬ Clash l) (ho : ∀ o' ∈ l, o'.decl ≠ o.decl) :
    ¬ Clash (l ++ [o]) := by
  rintro ⟨o₁, h₁, o₂, h₂, hdecl, howner⟩
  rcases List.mem_append.1 h₁ with h₁ | h₁ <;> rcases List.mem_append.1 h₂ with h₂ | h₂
  · exact h ⟨o₁, h₁, o₂, h₂, hdecl, howner⟩
  · cases List.mem_singleton.1 h₂
    exact ho o₁ h₁ hdecl
  · cases List.mem_singleton.1 h₁
    exact ho o₂ h₂ hdecl.symm
  · cases List.mem_singleton.1 h₁
    cases List.mem_singleton.1 h₂
    exact howner rfl

/-- An override that leads to the same type as an earlier one of its method makes no clash. -/
theorem Clash.of_append_cons {o first : Override} (hfirst : first ∈ l)
    (hdecl : first.decl = o.decl) (howner : first.body.owner = o.body.owner)
    (h : Clash (l ++ o :: k)) : Clash (l ++ k) := by
  refine h.mono fun o' ho' => ?_
  rcases List.mem_append.1 ho' with ho' | ho'
  · exact ⟨o', List.mem_append_left _ ho', rfl, rfl⟩
  · rcases List.mem_cons.1 ho' with rfl | ho'
    · exact ⟨first, List.mem_append_left _ hfirst, hdecl, howner⟩
    · exact ⟨o', List.mem_append_right _ ho', rfl, rfl⟩

/-- Where overrides are settled there is no clash. -/
theorem not_clash_of_settleAfter (hsettled : ¬ Clash settled) (h : settleAfter settled l = .ok r) :
    ¬ Clash (settled ++ l) := by
  induction l generalizing settled with
  | nil => rwa [List.append_nil]
  | cons o rest ih =>
    rw [settleAfter] at h
    split at h
    · next hnone =>
      have hnew : ∀ o' ∈ settled, o'.decl ≠ o.decl := by
        intro o' ho'
        simpa using List.find?_eq_none.1 hnone o' ho'
      have hrest := ih (not_clash_concat hsettled hnew) h
      rwa [List.append_assoc, List.singleton_append] at hrest
    · next first hfirst =>
      split at h
      · next hsame =>
        have hdecl : first.decl = o.decl := by simpa using List.find?_some hfirst
        have howner : first.body.owner = o.body.owner := by
          rw [Bool.or_eq_true, decide_eq_true_iff, decide_eq_true_iff] at hsame
          exact hsame.elim (congrArg Method.owner) id
        exact fun hclash => ih hsettled h
          (hclash.of_append_cons (List.mem_of_find?_eq_some hfirst) hdecl howner)
      · cases h

/-- The fault that keeps overrides from being settled names two that clash. -/
theorem exists_of_settleAfter_eq_error {f : Fault} (h : settleAfter settled l = .error f) :
    ∃ first ∈ settled ++ l, ∃ second ∈ l, first.decl = second.decl ∧
      first.body.owner ≠ second.body.owner ∧
      f = .conflictingOverrides second.decl first.body second.body := by
  induction l generalizing settled with
  | nil => cases h
  | cons o rest ih =>
    rw [settleAfter] at h
    split at h
    · obtain ⟨first, hfirst, second, hsecond, hclash⟩ := ih h
      rw [List.append_assoc, List.singleton_append] at hfirst
      exact ⟨first, hfirst, second, List.mem_cons_of_mem _ hsecond, hclash⟩
    · next first hfirst =>
      split at h
      · obtain ⟨first, hfirst, second, hsecond, hclash⟩ := ih h
        refine ⟨first, ?_, second, List.mem_cons_of_mem _ hsecond, hclash⟩
        exact (List.mem_append.1 hfirst).elim (List.mem_append_left _)
          fun hfirst => List.mem_append_right _ (List.mem_cons_of_mem _ hfirst)
      · next hdiffer =>
        cases h
        have hdecl : first.decl = o.decl := by simpa using List.find?_some hfirst
        have howner : first.body.owner ≠ o.body.owner := fun heq => hdiffer (by simp [heq])
        exact ⟨first, List.mem_append_left _ (List.mem_of_find?_eq_some hfirst), o,
          List.mem_cons_self, hdecl, howner, rfl⟩

/-- Overrides can be settled unless some clash. -/
theorem exists_settle_iff : (∃ r, settle l = .ok r) ↔ ¬ Clash l := by
  constructor
  · rintro ⟨r, hr⟩
    exact not_clash_of_settleAfter not_clash_nil hr
  · intro hclash
    cases hsettle : settle l with
    | ok r => exact ⟨r, rfl⟩
    | error f =>
      obtain ⟨first, hfirst, second, hsecond, hdecl, howner, -⟩ :=
        exists_of_settleAfter_eq_error hsettle
      exact absurd ⟨first, hfirst, second, hsecond, hdecl, howner⟩ hclash

/-- Settling fails where some clash, and names two that do. -/
theorem Clash.exists_settle_eq_error (h : Clash l) :
    ∃ first ∈ l, ∃ second ∈ l, first.decl = second.decl ∧ first.body.owner ≠ second.body.owner ∧
      settle l = .error (.conflictingOverrides second.decl first.body second.body) := by
  cases hsettle : settle l with
  | ok r => exact absurd h (exists_settle_iff.1 ⟨r, hsettle⟩)
  | error f =>
    obtain ⟨first, hfirst, second, hsecond, hdecl, howner, rfl⟩ :=
      exists_of_settleAfter_eq_error hsettle
    exact ⟨first, hfirst, second, hsecond, hdecl, howner, rfl⟩

/-! ## One override for each method -/

/-- Settled overrides are of the methods that they were of before. -/
theorem mem_decls_of_settleAfter (h : settleAfter settled l = .ok r) (m : Method) :
    m ∈ r.map decl ↔ m ∈ settled.map decl ∨ m ∈ l.map decl := by
  induction l generalizing settled with
  | nil =>
    cases h
    simp
  | cons o rest ih =>
    rw [settleAfter] at h
    split at h
    · rw [ih h, List.map_append, List.mem_append, List.map_cons, List.mem_cons, or_assoc]
      simp
    · next first hfirst =>
      split at h
      · have hdecl : first.decl = o.decl := by simpa using List.find?_some hfirst
        have ho : o.decl ∈ settled.map decl :=
          List.mem_map.2 ⟨first, List.mem_of_find?_eq_some hfirst, hdecl⟩
        rw [ih h, List.map_cons, List.mem_cons]
        constructor
        · exact Or.imp_right .inr
        · rintro (hm | rfl | hm)
          · exact .inl hm
          · exact .inl ho
          · exact .inr hm
      · cases h

/-- No method has two settled overrides. -/
theorem nodup_decls_of_settleAfter (hsettled : (settled.map decl).Nodup)
    (h : settleAfter settled l = .ok r) : (r.map decl).Nodup := by
  induction l generalizing settled with
  | nil =>
    cases h
    exact hsettled
  | cons o rest ih =>
    rw [settleAfter] at h
    split at h
    · next hnone =>
      have hnew : o.decl ∉ settled.map decl := by
        rw [List.mem_map]
        rintro ⟨o', ho', hdecl⟩
        simpa [hdecl] using List.find?_eq_none.1 hnone o' ho'
      refine ih ?_ h
      rw [List.map_append, List.nodup_append]
      refine ⟨hsettled, by simp, fun m hm m' hm' heq => hnew ?_⟩
      rwa [← List.mem_singleton.1 hm', ← heq]
    · split at h
      · exact ih hsettled h
      · cases h

/-- Where there is one override for each method, settling changes nothing. -/
theorem settleAfter_of_nodup (h : ((settled ++ l).map decl).Nodup) :
    settleAfter settled l = .ok (settled ++ l) := by
  induction l generalizing settled with
  | nil => rw [settleAfter, List.append_nil]
  | cons o rest ih =>
    have hnone : settled.find? (·.decl == o.decl) = none := by
      rw [List.find?_eq_none]
      intro o' ho' hdecl
      rw [List.map_append, List.nodup_append] at h
      exact h.2.2 o'.decl (List.mem_map_of_mem ho') o.decl List.mem_cons_self (by simpa using hdecl)
    rw [← List.singleton_append, ← List.append_assoc] at h ⊢
    rw [List.singleton_append, settleAfter, hnone]
    exact ih h

/-- Overrides of different methods are settled as they are. -/
theorem settle_of_nodup (h : (l.map decl).Nodup) : settle l = .ok l :=
  settleAfter_of_nodup h

end AheadOfTime.Override
