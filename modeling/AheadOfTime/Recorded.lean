/-!
# Recorded answers

Answering a question may lead to things that are worth keeping: entities that were needed, nodes
that were visited.  `Recorded σ α` is a question about values of type `α` that is asked in a state
`σ`.  The answer does not depend on the state, and asking changes the state only by taking note of
items.  A statement about answers therefore only ever mentions `value`, and what holds of every
state that notes lead to holds after every question.
-/

set_option autoImplicit false

namespace AheadOfTime

/-- States `σ` that take note of items `ω`. -/
class Recorder (σ : Type) (ω : outParam Type) where
  /-- The state after taking note of an item. -/
  note : σ → ω → σ

/-- A list of reports takes note at its end. -/
instance {ω : Type} : Recorder (Array ω) ω := ⟨Array.push⟩

/-- The state after taking note of items, in order. -/
def Recorder.noteAll {σ ω : Type} [Recorder σ ω] (s : σ) (items : List ω) : σ :=
  items.foldl note s

/-- A question that is asked in a state. -/
structure Recorded (σ : Type) {ω : Type} [Recorder σ ω] (α : Type) where
  /-- The answer, and the state after it was given. -/
  run : σ → α × σ
  /-- The answer is always the same, and so are the items that are noted. -/
  lawful : ∃ (a : α) (items : List ω), ∀ s : σ, run s = (a, Recorder.noteAll s items)

namespace Recorded

variable {σ ω : Type} [Recorder σ ω] {α β γ : Type}

/-- A question whose answer is known. -/
@[always_inline, inline]
protected def pure (a : α) : Recorded σ α where
  run s := (a, s)
  lawful := ⟨a, [], fun _ => rfl⟩

/-- A question, and then another one that its answer leads to. -/
@[always_inline, inline]
protected def bind (q : Recorded σ α) (f : α → Recorded σ β) : Recorded σ β where
  run s :=
    match q.run s with
    | (a, s) => (f a).run s
  lawful := by
    obtain ⟨a, first, hq⟩ := q.lawful
    obtain ⟨b, second, hf⟩ := (f a).lawful
    refine ⟨b, first ++ second, fun s => ?_⟩
    simp only [hq, hf, Recorder.noteAll, List.foldl_append]

@[always_inline]
instance : Monad (Recorded σ) where
  pure := Recorded.pure
  bind := Recorded.bind

/-- Takes note of an item. -/
def report (item : ω) : Recorded σ Unit where
  run s := ((), Recorder.note s item)
  lawful := ⟨(), [item], fun _ => rfl⟩

/-- Goes from one point to the next until there is an answer, in at most `n` steps; after so many,
`last` says what the answer is. -/
@[specialize]
def runLoop (step : α → Recorded σ (α ⊕ β)) (last : α → β) : Nat → α → σ → β × σ
  | 0, a, s => (last a, s)
  | n + 1, a, s =>
    match (step a).run s with
    | (.inl next, s) => runLoop step last n next s
    | (.inr b, s) => (b, s)

/-- A loop gives one value and notes one list of items, whatever state it starts in. -/
theorem lawful_runLoop (step : α → Recorded σ (α ⊕ β)) (last : α → β) (n : Nat) (a : α) :
    ∃ (b : β) (items : List ω), ∀ s : σ, runLoop step last n a s = (b, Recorder.noteAll s items) := by
  induction n generalizing a with
  | zero => exact ⟨last a, [], fun _ => rfl⟩
  | succ n ih =>
    obtain ⟨result, first, hstep⟩ := (step a).lawful
    cases result with
    | inl next =>
      obtain ⟨b, rest, hloop⟩ := ih next
      refine ⟨b, first ++ rest, fun s => ?_⟩
      simp only [runLoop, hstep, hloop, Recorder.noteAll, List.foldl_append]
    | inr b => exact ⟨b, first, fun s => by simp only [runLoop, hstep]⟩

/-- The question that goes from one point to the next until there is an answer, in at most `n`
steps. -/
@[inline]
def loop (step : α → Recorded σ (α ⊕ β)) (last : α → β) (n : Nat) (a : α) : Recorded σ β where
  run := runLoop step last n a
  lawful := lawful_runLoop step last n a

/-- The answer. -/
def value [Inhabited σ] (q : Recorded σ α) : α :=
  (q.run default).1

/-- Computations are equal if they do the same from every state. -/
theorem ext {q r : Recorded σ α} (h : ∀ s, q.run s = r.run s) : q = r := by
  cases q
  cases r
  congr
  exact funext h

instance : LawfulMonad (Recorded σ) :=
  LawfulMonad.mk' (Recorded σ) (fun _ => ext fun _ => rfl) (fun _ _ => ext fun _ => rfl)
    (fun _ _ _ => ext fun _ => rfl)

/-- A value that is only returned leaves the state alone. -/
@[simp] theorem run_pure (a : α) (s : σ) : (pure a : Recorded σ α).run s = (a, s) := rfl

/-- The second of two computations starts in the state that the first one leaves. -/
@[simp] theorem run_bind (q : Recorded σ α) (f : α → Recorded σ β) (s : σ) :
    (q >>= f).run s = (f (q.run s).1).run (q.run s).2 := rfl

/-- A loop takes its first step and then goes on in a loop. -/
theorem loop_succ (step : α → Recorded σ (α ⊕ β)) (last : α → β) (n : Nat) (a : α) :
    loop step last (n + 1) a = step a >>= fun result =>
      match result with
      | .inl next => loop step last n next
      | .inr b => pure b := by
  refine ext fun s => ?_
  rw [run_bind]
  show runLoop step last (n + 1) a s = _
  rw [runLoop]
  rcases (step a).run s with ⟨next | b, s⟩ <;> rfl

/-- Asking takes note of the same items in every state. -/
theorem exists_snd_run (q : Recorded σ α) :
    ∃ items : List ω, ∀ s, (q.run s).2 = Recorder.noteAll s items := by
  obtain ⟨a, items, h⟩ := q.lawful
  exact ⟨items, fun s => by rw [h]⟩

variable [Inhabited σ]

/-- The answer is the same in every state. -/
@[simp] theorem fst_run (q : Recorded σ α) (s : σ) : (q.run s).1 = q.value := by
  obtain ⟨a, items, h⟩ := q.lawful
  simp only [value, h]

/-- The value of a computation that only returns one. -/
@[simp] theorem value_pure (a : α) : (pure a : Recorded σ α).value = a := rfl

/-- The value of two computations in a row is that of the second, given the value of the first. -/
@[simp] theorem value_bind (q : Recorded σ α) (f : α → Recorded σ β) :
    (q >>= f).value = (f q.value).value :=
  fst_run (f q.value) _

/-- A function of the result changes the value and nothing else. -/
@[simp] theorem value_map (f : α → β) (q : Recorded σ α) : (f <$> q).value = f q.value := rfl

/-- Noting an item has no value of its own. -/
@[simp] theorem value_report (item : ω) : (report item : Recorded σ Unit).value = () := rfl

end Recorded

end AheadOfTime
