import Mathlib.Data.List.DropRight
import Mathlib.Tactic.SplitIfs
import TimingDiagram.Text.Blank

/-! Runs of characters of one class, and texts without the blanks around them. -/
namespace TimingDiagram.Text

variable {p : Char → Bool} {cs run rest : List Char}

/-- Whether a text opens with a character of a class. -/
def opens (p : Char → Bool) (cs : List Char) : Bool := cs.head?.any p

/-- Whether a text ends with a character of a class. -/
def ends (p : Char → Bool) (cs : List Char) : Bool := cs.getLast?.any p

@[simp] theorem opens_nil (p : Char → Bool) : opens p [] = false := rfl

@[simp] theorem opens_cons (p : Char → Bool) (c : Char) (cs : List Char) :
    opens p (c :: cs) = p c := rfl

theorem opens_reverse (p : Char → Bool) (cs : List Char) : opens p cs.reverse = ends p cs := by
  rw [opens, ends, List.head?_reverse]

theorem opens_append (hRun : ∀ c ∈ run, p c = false) (hRest : opens p rest = false) :
    opens p (run ++ rest) = false := by
  cases run with
  | nil => exact hRest
  | cons c run => exact hRun c (by simp)

theorem opens_append_of_ne_nil (hNil : run ≠ []) (hRun : ∀ c ∈ run, p c = false) :
    opens p (run ++ rest) = false := by
  cases run with
  | nil => exact absurd rfl hNil
  | cons c run => exact hRun c (by simp)

theorem opens_dropWhile (p : Char → Bool) (cs : List Char) :
    opens p (cs.dropWhile p) = false := by
  induction cs with
  | nil => rfl
  | cons c cs ih =>
      rw [List.dropWhile_cons]
      split_ifs with hc
      · exact ih
      · simpa using hc

theorem takeWhile_of_opens (h : opens p cs = false) : cs.takeWhile p = [] := by
  cases cs with
  | nil => rfl
  | cons c cs => exact List.takeWhile_cons_of_neg (by simpa using h)

theorem dropWhile_of_opens (h : opens p cs = false) : cs.dropWhile p = cs := by
  cases cs with
  | nil => rfl
  | cons c cs => exact List.dropWhile_cons_of_neg (by simpa using h)

/-- A run reaches up to where a character of another class follows. -/
theorem takeWhile_run (hRun : ∀ c ∈ run, p c = true) (hRest : opens p rest = false) :
    (run ++ rest).takeWhile p = run := by
  rw [List.takeWhile_append_of_pos hRun, takeWhile_of_opens hRest, List.append_nil]

theorem dropWhile_run (hRun : ∀ c ∈ run, p c = true) (hRest : opens p rest = false) :
    (run ++ rest).dropWhile p = rest := by
  rw [List.dropWhile_append_of_pos hRun, dropWhile_of_opens hRest]

/-- A text splits at the end of a run in one way only. -/
theorem run_inj {other more : List Char} (hRun : ∀ c ∈ run, p c = true)
    (hOther : ∀ c ∈ other, p c = true) (hRest : opens p rest = false)
    (hMore : opens p more = false) (h : run ++ rest = other ++ more) :
    run = other ∧ rest = more := by
  constructor
  · rw [← takeWhile_run hRun hRest, h, takeWhile_run hOther hMore]
  · rw [← dropWhile_run hRun hRest, h, dropWhile_run hOther hMore]

/-- Blanks before a text do not show once it is trimmed. -/
theorem trimBlanks_append (hRun : ∀ c ∈ run, isBlank c = true) (rest : List Char) :
    trimBlanks (run ++ rest) = trimBlanks rest := by
  rw [trimBlanks, dropBlanks, List.dropWhile_append_of_pos hRun, trimBlanks, dropBlanks]

theorem trimBlanks_eq_nil (h : ∀ c ∈ cs, isBlank c = true) : trimBlanks cs = [] := by
  calc trimBlanks cs
    _ = trimBlanks (cs ++ []) := by rw [List.append_nil]
    _ = trimBlanks [] := trimBlanks_append h []
    _ = [] := rfl

theorem opens_trimBlanks (cs : List Char) : opens isBlank (trimBlanks cs) = false := by
  obtain ⟨tail, hTail⟩ := List.rdropWhile_prefix isBlank (l := dropBlanks cs)
  change trimBlanks cs ++ tail = cs.dropWhile isBlank at hTail
  cases hTrimmed : trimBlanks cs with
  | nil => rfl
  | cons c trimmed =>
      have hOpens := opens_dropWhile isBlank cs
      rwa [← hTail, hTrimmed] at hOpens

/-- What is dropped at the end of a text are blanks. -/
theorem exists_trailing (cs : List Char) :
    ∃ blanks, dropTrailingBlanks cs ++ blanks = cs ∧ ∀ c ∈ blanks, isBlank c = true := by
  refine ⟨(cs.reverse.takeWhile isBlank).reverse, ?_, fun c hc => ?_⟩
  · rw [dropTrailingBlanks, ← List.reverse_append, List.takeWhile_append_dropWhile, List.reverse_reverse]
  · exact List.mem_takeWhile_imp (List.mem_reverse.mp hc)

theorem ends_dropTrailingBlanks (cs : List Char) : ends isBlank (dropTrailingBlanks cs) = false := by
  rw [← opens_reverse, dropTrailingBlanks, List.reverse_reverse]
  exact opens_dropWhile isBlank cs.reverse

/-- From some place on a text is blank just when nothing but the end that is dropped lies there. -/
theorem all_drop_iff {n : Nat} : (cs.drop n).all isBlank = true ↔ (dropTrailingBlanks cs).length ≤ n := by
  obtain ⟨blanks, hSplit, hBlank⟩ := exists_trailing cs
  have hEnds := ends_dropTrailingBlanks cs
  generalize dropTrailingBlanks cs = body at *
  rw [List.all_eq_true, ← hSplit]
  constructor
  · intro hAll
    by_contra hInside
    rw [List.drop_append_of_le_length (by omega)] at hAll
    have hSome : body ≠ [] := by
      rintro rfl
      simp at hInside
    have hLast : body.getLast hSome ∈ body.drop n := by
      rw [← List.getLast_drop (by rw [Ne, List.drop_eq_nil_iff]; omega)]
      exact List.getLast_mem _
    rw [ends, List.getLast?_eq_getLast_of_ne_nil hSome, Option.any_some,
      hAll _ (List.mem_append_left _ hLast)] at hEnds
    cases hEnds
  · intro hPast c hc
    rw [List.drop_append, List.drop_eq_nil_of_le hPast, List.nil_append] at hc
    exact hBlank c (List.mem_of_mem_drop hc)

theorem dropTrailingBlanks_append (run : List Char) (hNil : dropTrailingBlanks rest ≠ []) :
    dropTrailingBlanks (run ++ rest) = run ++ dropTrailingBlanks rest := by
  have hKept : (rest.reverse.dropWhile isBlank).isEmpty = false := by
    simpa [dropTrailingBlanks] using hNil
  rw [dropTrailingBlanks, List.reverse_append, List.dropWhile_append, hKept, if_neg Bool.false_ne_true,
    List.reverse_append, List.reverse_reverse, dropTrailingBlanks]

theorem ends_trimBlanks (cs : List Char) : ends isBlank (trimBlanks cs) = false :=
  ends_dropTrailingBlanks (dropBlanks cs)

/-- Trimming leaves a text alone that neither opens nor ends with a blank. -/
theorem trimBlanks_eq_self (hOpens : opens isBlank cs = false) (hEnds : ends isBlank cs = false) :
    trimBlanks cs = cs := by
  rw [trimBlanks, dropBlanks, dropWhile_of_opens hOpens, dropTrailingBlanks,
    dropWhile_of_opens ((opens_reverse isBlank cs).trans hEnds), List.reverse_reverse]

end TimingDiagram.Text
