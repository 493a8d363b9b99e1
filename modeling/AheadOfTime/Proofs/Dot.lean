import AheadOfTime.Dot
import Mathlib.Data.List.Induction

/-!
# Reading Graphviz text

Graphviz text is read from left to right as words, signs and texts between quotes.  A backslash
inside of a text escapes the character after it, and a text ends at the first quote that is not
escaped; no text goes beyond the end of its line.  The characters of a label are written in such a
way that nothing of a label is ever taken for its end, so labels can be read back, but for carriage
returns, which are not written.
-/

set_option autoImplicit false

namespace AheadOfTime.Dot

/-! ## Escapes -/

/-- Whether the next character is escaped: as backslashes escape each other, it is if an odd number
of them stands before it. -/
def escapesNext (before : List Char) : Bool :=
  (before.reverse.takeWhile (· == '\\')).length % 2 == 1

/-- Each quote is escaped. -/
def QuotesEscaped (t : List Char) : Prop :=
  ∀ before after, t = before ++ '"' :: after → escapesNext before = true

/-- Reads the rest of a text between quotes; `escaped` tells whether a backslash comes before it. -/
def unescapeFrom : (escaped : Bool) → List Char → Option (List Char)
  | false, [] => some []
  | true, [] => none
  | true, c :: rest => (unescapeFrom false rest).map ((if c = 'n' then '\n' else c) :: ·)
  | false, c :: rest =>
    if c = '\\' then unescapeFrom true rest else (unescapeFrom false rest).map (c :: ·)

/-- The characters that a text between quotes stands for. -/
def unescape (t : List Char) : Option (List Char) :=
  unescapeFrom false t

/-- The characters that are written. -/
def withoutReturns (s : List Char) : List Char :=
  s.filter (· ≠ '\r')

/-- A character is escaped exactly if a backslash comes before it that is not escaped itself. -/
theorem escapesNext_concat (before : List Char) (c : Char) :
    escapesNext (before ++ [c]) = (decide (c = '\\') && !escapesNext before) := by
  unfold escapesNext
  rw [List.reverse_concat, List.takeWhile_cons]
  by_cases hc : c = '\\'
  · subst hc
    simp only [beq_self_eq_true, if_true, List.length_cons, decide_true, Bool.true_and]
    rcases Nat.mod_two_eq_zero_or_one (before.reverse.takeWhile (· == '\\')).length with h | h
    · simp [Nat.add_mod, h]
    · simp [Nat.add_mod, h]
  · simp [hc]

/-- The ways in which a character is written. -/
theorem escapeChar_cases (c : Char) :
    (∃ d, escapeChar c = ['\\', d] ∧ d ≠ '\n' ∧ (if d = 'n' then '\n' else d) = c ∧ c ≠ '\r') ∨
      (c = '\r' ∧ escapeChar c = []) ∨
      (escapeChar c = [c] ∧ c ≠ '\\' ∧ c ≠ '"' ∧ c ≠ '\n' ∧ c ≠ '\r') := by
  unfold escapeChar
  split
  · next hc =>
    left
    refine ⟨c, rfl, ?_⟩
    simp only [isSpecial, Bool.or_eq_true, beq_iff_eq] at hc
    rcases hc with (((((rfl | rfl) | rfl) | rfl) | rfl) | rfl) | rfl <;> decide
  · next hc =>
    simp only [isSpecial, Bool.or_eq_true, beq_iff_eq, not_or] at hc
    split
    · next hn =>
      left
      exact ⟨'n', rfl, by decide, hn.symm, hn ▸ by decide⟩
    · next hn =>
      right
      split
      · next hr => exact .inl ⟨hr, rfl⟩
      · next hr => exact .inr ⟨rfl, hc.1.1.1.1.1.1, hc.1.1.1.1.1.2, hn, hr⟩

/-- Characters are escaped one by one. -/
theorem escapeChars_concat (s : List Char) (c : Char) :
    escapeChars (s ++ [c]) = escapeChars s ++ escapeChar c := by
  simp [escapeChars]

/-- A label is written without line breaks. -/
theorem newline_not_mem_escapeChars (s : List Char) : '\n' ∉ escapeChars s := by
  intro hmem
  obtain ⟨c, -, hc⟩ := List.mem_flatMap.1 hmem
  rcases escapeChar_cases c with ⟨d, heq, hd, -, -⟩ | ⟨-, heq⟩ | ⟨heq, -, -, hn, -⟩
  · rw [heq, List.mem_cons, List.mem_singleton] at hc
    exact hc.elim (by decide) fun h => hd h.symm
  · rw [heq] at hc
    cases hc
  · rw [heq, List.mem_singleton] at hc
    exact hn hc.symm

/-- What follows a label is not escaped. -/
theorem escapesNext_escapeChars (s : List Char) : escapesNext (escapeChars s) = false := by
  induction s using List.reverseRecOn with
  | nil => rfl
  | append_singleton s c ih =>
    rw [escapeChars_concat]
    rcases escapeChar_cases c with ⟨d, heq, -⟩ | ⟨-, heq⟩ | ⟨heq, hc, -⟩
    · have hpair : escapeChars s ++ ['\\', d] = escapeChars s ++ ['\\'] ++ [d] := by simp
      rw [heq, hpair, escapesNext_concat, escapesNext_concat, ih]
      simp
    · rw [heq, List.append_nil, ih]
    · rw [heq, escapesNext_concat, decide_eq_false hc, Bool.false_and]

/-- Adding a character keeps quotes escaped, unless it is a quote that is not. -/
theorem QuotesEscaped.concat {t : List Char} {c : Char} (h : QuotesEscaped t)
    (hc : c = '"' → escapesNext t = true) : QuotesEscaped (t ++ [c]) := by
  intro before after heq
  rcases List.eq_nil_or_concat after with rfl | ⟨rest, d, rfl⟩
  · obtain ⟨rfl, hlast⟩ := List.append_inj' heq rfl
    exact hc (List.head_eq_of_cons_eq hlast)
  · rw [List.concat_eq_append, ← List.cons_append, ← List.append_assoc] at heq
    exact h before rest (List.append_inj' heq rfl).1

/-- All quotes of a label are escaped. -/
theorem quotesEscaped_escapeChars (s : List Char) : QuotesEscaped (escapeChars s) := by
  induction s using List.reverseRecOn with
  | nil => exact fun before after h => by simp [escapeChars] at h
  | append_singleton s c ih =>
    rw [escapeChars_concat]
    rcases escapeChar_cases c with ⟨d, heq, -⟩ | ⟨-, heq⟩ | ⟨heq, -, hc, -⟩
    · have hpair : escapeChars s ++ ['\\', d] = escapeChars s ++ ['\\'] ++ [d] := by simp
      rw [heq, hpair]
      refine (ih.concat fun h => absurd h (by decide)).concat fun _ => ?_
      rw [escapesNext_concat, escapesNext_escapeChars]
      rfl
    · rwa [heq, List.append_nil]
    · rw [heq]
      exact ih.concat fun h => absurd h hc

/-- What was written for a character is read as that character, whatever follows. -/
theorem unescapeFrom_escapeChar (c : Char) (rest : List Char) :
    unescapeFrom false (escapeChar c ++ rest) =
      (unescapeFrom false rest).map (withoutReturns [c] ++ ·) := by
  rcases escapeChar_cases c with ⟨d, heq, -, rfl, hr⟩ | ⟨rfl, heq⟩ | ⟨heq, hc, -, -, hr⟩
  · simp [heq, unescapeFrom, withoutReturns, hr]
  · simp [heq, withoutReturns]
  · simp [heq, unescapeFrom, withoutReturns, hc, hr]

/-- What was written for a label is read as the label, without carriage returns. -/
theorem unescape_escapeChars (s : List Char) :
    unescape (escapeChars s) = some (withoutReturns s) := by
  induction s with
  | nil => rfl
  | cons c s ih =>
    rw [unescape] at ih ⊢
    rw [escapeChars, List.flatMap_cons, unescapeFrom_escapeChar, ← escapeChars, ih, Option.map_some]
    exact congrArg some (List.filter_append [c] s).symm

/-! ## Words, signs and texts -/

/-- What Graphviz text is made of. -/
inductive Token where
  /-- Letters, digits and underscores. -/
  | word (w : List Char)
  /-- A character that stands for itself. -/
  | sign (c : Char)
  /-- What stands between two quotes. -/
  | text (t : List Char)
deriving DecidableEq, Repr

/-- Where one is while reading. -/
inductive Mode where
  /-- Between two tokens. -/
  | between
  /-- In a word, of which this much has been read. -/
  | word (w : List Char)
  /-- In a text, of which this much has been read. -/
  | text (t : List Char)
  /-- In a text, right after a backslash that escapes the next character. -/
  | escape (t : List Char)
deriving DecidableEq, Repr

/-- Whether a character may be part of a word. -/
def isWordChar (c : Char) : Bool :=
  c.isAlphanum || c == '_'

/-- What a character between two tokens is, or is the begin of. -/
def start (c : Char) : List Token × Mode :=
  if c = '"' then ([], .text [])
  else if isWordChar c then ([], .word [c])
  else if c.isWhitespace then ([], .between)
  else ([.sign c], .between)

/-- Reads one character: the tokens that are complete with it, and where one is then.  A text must
not be broken by the end of a line. -/
def step : Mode → Char → Option (List Token × Mode)
  | .between, c => some (start c)
  | .word w, c =>
    if isWordChar c then some ([], .word (w ++ [c]))
    else some (.word w :: (start c).1, (start c).2)
  | .text t, c =>
    if c = '\n' then none
    else if c = '"' then some ([.text t], .between)
    else if c = '\\' then some ([], .escape (t ++ [c]))
    else some ([], .text (t ++ [c]))
  | .escape t, c => if c = '\n' then none else some ([], .text (t ++ [c]))

/-- Reads characters one after the other. -/
def scan : Mode → List Char → Option (List Token × Mode)
  | m, [] => some ([], m)
  | m, c :: rest =>
    (step m c).bind fun first =>
      (scan first.2 rest).map fun others => (first.1 ++ others.1, others.2)

/-- The tokens of a text. -/
def tokens (text : List Char) : Option (List Token) :=
  (scan .between text).bind fun
    | (ts, .between) => some ts
    | (ts, .word w) => some (ts ++ [.word w])
    | _ => none

/-- Joined text is read in two parts, the second in the mode that the first one leads to. -/
theorem scan_append {m m' : Mode} {a : List Char} {ts : List Token}
    (ha : scan m a = some (ts, m')) (b : List Char) :
    scan m (a ++ b) = (scan m' b).map fun others => (ts ++ others.1, others.2) := by
  induction a generalizing m ts with
  | nil =>
    cases ha
    simp
  | cons c a ih =>
    rw [scan] at ha
    obtain ⟨first, hstep, ha⟩ := Option.bind_eq_some_iff.1 ha
    obtain ⟨others, hscan, ha⟩ := Option.map_eq_some_iff.1 ha
    obtain ⟨rfl, rfl⟩ := Prod.mk.inj ha
    rw [List.cons_append, scan, hstep, Option.bind_some, ih hscan, Option.map_map]
    simp only [List.append_assoc]
    rfl

/-- A text without a line break is read as a whole as long as all its quotes are escaped. -/
theorem scan_text {t : List Char} (hquotes : QuotesEscaped t) (hnewline : '\n' ∉ t) :
    scan (.text []) t = some ([], if escapesNext t then .escape t else .text t) := by
  induction t using List.reverseRecOn with
  | nil => rfl
  | append_singleton t c ih =>
    have hquotes' : QuotesEscaped t := fun before after h =>
      hquotes before (after ++ [c]) (by simp [h])
    have hquote : escapesNext t = false → c ≠ '"' := by
      rintro hfree rfl
      exact absurd (hquotes t [] rfl) (by simp [hfree])
    rw [List.mem_append, List.mem_singleton, not_or] at hnewline
    obtain ⟨hnewline, hc⟩ := hnewline
    rw [scan_append (ih hquotes' hnewline), escapesNext_concat]
    cases hescapes : escapesNext t with
    | true => simp [scan, step, Ne.symm hc]
    | false =>
      by_cases hback : c = '\\'
      · subst hback
        simp [scan, step]
      · simp [scan, step, Ne.symm hc, hquote hescapes, hback]

/-- Text that begins and ends between two tokens, and its tokens. -/
def Lexes (text : List Char) (ts : List Token) : Prop :=
  scan .between text = some (ts, .between)

/-- Texts that begin and end between tokens can be joined, and so are their tokens. -/
theorem Lexes.append {a b : List Char} {ts us : List Token} (ha : Lexes a ts) (hb : Lexes b us) :
    Lexes (a ++ b) (ts ++ us) := by
  rw [Lexes, scan_append ha, hb]
  rfl

/-- A text that begins and ends between tokens has these tokens. -/
theorem Lexes.tokens_eq {text : List Char} {ts : List Token} (h : Lexes text ts) :
    tokens text = some ts := by
  rw [tokens, h]
  rfl

/-- Letters, digits and underscores up to a blank are one word. -/
theorem lexes_word {c : Char} {w : List Char} (hw : ∀ d ∈ c :: w, isWordChar d = true) :
    Lexes (c :: w ++ [' ']) [.word (c :: w)] := by
  have hscan : ∀ (before w : List Char), (∀ d ∈ w, isWordChar d = true) →
      scan (.word before) w = some ([], .word (before ++ w)) := by
    intro before w hw
    induction w generalizing before with
    | nil => simp [scan]
    | cons d w ih =>
      have hd := hw d List.mem_cons_self
      simp [scan, step, hd, ih (before ++ [d]) fun e he => hw e (List.mem_cons_of_mem _ he)]
  have hc := hw c List.mem_cons_self
  have hquote : c ≠ '"' := by
    rintro rfl
    exact absurd hc (by decide)
  have hstart : scan .between [c] = some ([], .word [c]) := by
    simp [scan, step, start, hquote, hc]
  have hword := scan_append hstart (w ++ [' '])
  rw [scan_append (hscan [c] w fun d hd => hw d (List.mem_cons_of_mem _ hd))] at hword
  exact hword

/-- A label between quotes is one text. -/
theorem lexes_label (s : List Char) :
    Lexes ('"' :: escapeChars s ++ ['"']) [.text (escapeChars s)] := by
  have hopen : scan .between ['"'] = some ([], .text []) := rfl
  have htext := scan_text (quotesEscaped_escapeChars s) (newline_not_mem_escapeChars s)
  rw [escapesNext_escapeChars] at htext
  have hall := scan_append hopen (escapeChars s ++ ['"'])
  rw [scan_append htext] at hall
  exact hall

end AheadOfTime.Dot
