import AheadOfTime.Recorded

/-!
# Values of recorded traversals

The answer to a question that goes through a list is found by going through the list with the
answers alone.
-/

set_option autoImplicit false

namespace AheadOfTime.Recorded

variable {σ ω : Type} [Recorder σ ω] [Inhabited σ] {α β : Type}

/-- The values along a list are those of the single items. -/
@[simp] theorem value_mapM (f : α → Recorded σ β) (l : List α) :
    (l.mapM f).value = l.map fun a => (f a).value := by
  induction l with
  | nil => rfl
  | cons a l ih => simp [ih]

/-- The value of a fold is the fold of the values. -/
@[simp] theorem value_foldlM (f : β → α → Recorded σ β) (l : List α) (b : β) :
    (l.foldlM f b).value = l.foldl (fun b a => (f b a).value) b := by
  induction l generalizing b with
  | nil => rfl
  | cons a l ih => simp [ih]

/-- What a recorded search finds is what the plain search with the same answers finds. -/
@[simp] theorem value_findM? (p : α → Recorded σ Bool) (l : List α) :
    (l.findM? p).value = l.find? fun a => (p a).value := by
  induction l with
  | nil => rfl
  | cons a l ih =>
    rw [List.findM?, value_bind, List.find?_cons]
    cases (p a).value <;> simp [ih]

/-- Whether some item of a list is accepted depends on the values alone. -/
@[simp] theorem value_anyM (p : α → Recorded σ Bool) (l : List α) :
    (l.anyM p).value = l.any fun a => (p a).value := by
  induction l with
  | nil => rfl
  | cons a l ih =>
    rw [List.anyM, value_bind, List.any_cons]
    cases (p a).value <;> simp [ih]

/-- The accepted items are collected in reverse, before those collected already. -/
theorem value_filterAuxM (p : α → Recorded σ Bool) (l acc : List α) :
    (l.filterAuxM p acc).value = (l.filter fun a => (p a).value).reverse ++ acc := by
  induction l generalizing acc with
  | nil => rfl
  | cons a l ih =>
    rw [List.filterAuxM, value_bind, ih, List.filter_cons]
    cases (p a).value <;> simp

/-- A recorded filter keeps the items that the plain filter with the same answers keeps. -/
@[simp] theorem value_filterM (p : α → Recorded σ Bool) (l : List α) :
    (l.filterM p).value = l.filter fun a => (p a).value := by
  simp [List.filterM, value_filterAuxM]

/-! ## Attempts -/

/-- Of two attempts in a row, the outcome is that of the second if the first succeeds. -/
theorem value_run_bind {ε : Type} (q : ExceptT ε (Recorded σ) α)
    (f : α → ExceptT ε (Recorded σ) β) :
    (q >>= f).run.value = q.run.value >>= fun a => (f a).run.value := by
  rw [ExceptT.run_bind, value_bind]
  cases q.run.value <;> rfl

/-- A function of the result acts on the outcome of an attempt. -/
theorem value_run_map {ε : Type} (f : α → β) (q : ExceptT ε (Recorded σ) α) :
    (f <$> q).run.value = f <$> q.run.value := by
  rw [ExceptT.run_map]
  rfl

/-- The outcome of attempts along a list is that of the single outcomes in order. -/
theorem value_run_mapM {ε : Type} (f : α → ExceptT ε (Recorded σ) β) (l : List α) :
    (l.mapM f).run.value = l.mapM fun a => (f a).run.value := by
  induction l with
  | nil => rfl
  | cons a l ih =>
    rw [List.mapM_cons, List.mapM_cons, value_run_bind]
    congr 1
    funext b
    rw [value_run_bind, ih]
    rfl

end AheadOfTime.Recorded
