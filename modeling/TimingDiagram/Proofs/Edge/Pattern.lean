import TimingDiagram.Edge.Pattern
import TimingDiagram.Proofs.Edge.Shorthand
import TimingDiagram.Proofs.Text.Matching

/-! The pattern of a shorthand. Wherever it could go on in several ways at most one leads to a match,
except within the label, which the first match ends before the blanks at the end. So a text is read in one
pass, and gives the edge that the pattern finds. -/
namespace TimingDiagram
namespace EdgeSpec

open Text Text.Pattern

theorem holds_blankClass : blankClass.holds = isBlank := by
  funext c
  simp [CharClass.holds, blankClass]

theorem holds_nameClass : nameClass.holds = isNameChar := by
  funext c
  rw [Bool.eq_iff_iff]
  simp [CharClass.holds, nameClass, isNameChar, isSymbolChar, and_assoc]

theorem holds_lineClass : lineClass.holds = (· != '\n') := by
  funext c
  rw [Bool.eq_iff_iff]
  simp [CharClass.holds, lineClass]

/-! The label. -/

/-- The blanks at the end. -/
def ending : Pattern := .all [.many true blankClass, .stop]

/-- A label, and the blanks at the end. -/
def labelEnding : Pattern := .seq (.group 6 (.many false lineClass)) ending

/-- What follows the second name. -/
def tail : Pattern :=
  .seq (.maybe (.seq (.oneOrMore blankClass) (.group 6 (.many false lineClass)))) ending

theorem run_stop (s : Progress) :
    (seq stop empty).run s = if s.rest = [] ∨ s.rest = ['\n'] then [s] else [] := by
  change (if _ then [s] else []).flatMap empty.run = _
  split_ifs <;> rfl

/-- Blanks up to the end of the text are a match. -/
theorem head?_ending (s : Progress) :
    (ending.run s).head? = if s.rest.all isBlank = true then some (s.past isBlank) else none := by
  change (((many true blankClass).run s).flatMap (seq stop empty).run).head? = _
  rw [List.head?_flatMap, run, if_pos rfl, holds_blankClass]
  split_ifs with hAll
  · have hRun : s.rest.takeWhile isBlank = s.rest :=
      List.takeWhile_eq_self_iff.mpr (List.all_eq_true.mp hAll)
    have hDone : (s.past isBlank).rest = [] := by
      rw [Progress.rest_past, List.dropWhile_eq_nil_iff]
      exact List.all_eq_true.mp hAll
    have hFirst : (seq stop empty).run (s.skip (s.rest.takeWhile isBlank).length) = [s.past isBlank] :=
      (run_stop (s.past isBlank)).trans (if_pos (.inl hDone))
    rw [List.range_succ, List.map_append, List.reverse_append, List.map_singleton,
      List.reverse_singleton, List.singleton_append, List.findSome?_cons, hFirst]
    rfl
  · refine List.findSome?_eq_none_iff.mpr fun t ht => ?_
    obtain ⟨n, hn, rfl⟩ := List.mem_map.mp (List.mem_reverse.mp ht)
    have hPrefix : s.rest.take n <+: s.rest.takeWhile isBlank := by
      rw [← take_length_takeWhile isBlank s.rest]
      exact List.take_prefix_take_left (by simpa [Nat.lt_succ_iff] using hn)
    have hLate : ¬ (s.rest.drop n).all isBlank = true := by
      intro hRest
      refine hAll (List.all_eq_true.mpr fun c hc => ?_)
      rw [← List.take_append_drop n s.rest, List.mem_append] at hc
      rcases hc with hc | hc
      · exact List.mem_takeWhile_imp (hPrefix.mem hc)
      · exact List.all_eq_true.mp hRest c hc
    rw [run_stop, if_neg, List.head?_nil]
    rintro (hEnd | hEnd)
    · exact hLate (by rw [show s.rest.drop n = [] from hEnd]; rfl)
    · exact hLate (by rw [show s.rest.drop n = ['\n'] from hEnd]; decide)

/-- The first match takes a label up to the blanks at the end, if it is on one line. -/
theorem head?_labelEnding (s : Progress) :
    (labelEnding.run s).head?.map Progress.groups =
      if '\n' ∈ dropTrailingBlanks s.rest then none
      else some ((6, dropTrailingBlanks s.rest) :: s.groups) := by
  obtain ⟨blanks, hSplit, hBlank⟩ := exists_trailing s.rest
  have hPlace (n : Nat) : (ending.run (s.keep 6 (s.skip n))).head? =
      if (dropTrailingBlanks s.rest).length ≤ n then some ((s.keep 6 (s.skip n)).past isBlank)
      else none := by
    rw [head?_ending]
    exact if_congr all_drop_iff rfl rfl
  change ((((many false lineClass).run s).map (s.keep 6)).flatMap ending.run).head?.map _ = _
  rw [List.flatMap_map, List.head?_flatMap, run, if_neg Bool.false_ne_true, List.findSome?_map,
    holds_lineClass]
  simp only [Function.comp_def, hPlace]
  split_ifs with hLine
  · -- The label would have to go past a line feed.
    rw [List.findSome?_eq_none_iff.mpr]
    · rfl
    · intro n hn
      refine if_neg fun hLong => ?_
      have hPrefix : dropTrailingBlanks s.rest <+: s.rest.takeWhile (· != '\n') := by
        refine List.prefix_of_prefix_length_le ⟨blanks, hSplit⟩ (List.takeWhile_prefix _) ?_
        have := List.mem_range.mp hn
        omega
      have hOther := List.mem_takeWhile_imp (hPrefix.mem hLine)
      simp at hOther
  · have hFits : (dropTrailingBlanks s.rest).length ≤ (s.rest.takeWhile (· != '\n')).length := by
      have hBody : ∀ c ∈ dropTrailingBlanks s.rest, (c != '\n') = true := by
        intro c hc
        simpa using fun hSame : c = '\n' => hLine (hSame ▸ hc)
      conv_rhs => rw [← hSplit, List.takeWhile_append_of_pos hBody]
      simp
    obtain ⟨more, hMore⟩ := Nat.exists_eq_add_of_le hFits
    rw [hMore, Nat.add_assoc, List.range_add, List.findSome?_append, List.range_succ_eq_map,
      List.map_cons, List.findSome?_cons, List.findSome?_eq_none_iff.mpr]
    · simp only [Nat.add_zero, le_refl, if_true, Option.none_or, Option.map_some]
      change some (s.keep 6 (s.skip _)).groups = _
      rw [Progress.groups_keep_skip, ← List.prefix_iff_eq_take.mp ⟨blanks, hSplit⟩]
    · intro n hn
      exact if_neg (by simpa using hn)

/-- With fewer blanks before it a label still has the line feed in it. -/
theorem run_labelEnding_of_line {s : Progress} {n : Nat} (hn : n ≤ (s.rest.takeWhile isBlank).length)
    (hLine : '\n' ∈ trimBlanks s.rest) : labelEnding.run (s.skip n) = [] := by
  have hRest : (s.skip n).rest = (s.rest.takeWhile isBlank).drop n ++ dropBlanks s.rest := by
    change s.rest.drop n = _
    conv_lhs => rw [← List.takeWhile_append_dropWhile (p := isBlank) (l := s.rest)]
    exact List.drop_append_of_le_length hn
  have hLabel := head?_labelEnding (s.skip n)
  rw [trimBlanks] at hLine
  rw [hRest, dropTrailingBlanks_append _ (List.ne_nil_of_mem hLine),
    if_pos (List.mem_append_right _ hLine), Option.map_eq_none_iff] at hLabel
  exact List.head?_eq_none_iff.mp hLabel

/-- What follows the second name is a match where it may follow, and its label is what lies between blanks
in it. -/
theorem head?_tail (s : Progress) :
    (tail.run s).head?.map Progress.groups =
      if opens (fun c => !isBlank c) s.rest = true ∨ '\n' ∈ trimBlanks s.rest then none
      else some (if s.rest = [] then s.groups else (6, trimBlanks s.rest) :: s.groups) := by
  have hRun : tail.run s = ((oneOrMore blankClass).run s).flatMap labelEnding.run ++ ending.run s := by
    change ((((oneOrMore blankClass).run s).flatMap (group 6 (many false lineClass)).run) ++
      [s]).flatMap ending.run = _
    rw [List.flatMap_append, List.flatMap_assoc, List.flatMap_singleton]
    rfl
  have hEnding := head?_ending s
  rw [hRun, run_oneOrMore, holds_blankClass]
  cases hRest : s.rest with
  | nil =>
      rw [hRest] at hEnding
      simp [hEnding, trimBlanks, dropBlanks, dropTrailingBlanks, Progress.past, Progress.skip]
  | cons c rest =>
      rw [hRest] at hEnding
      by_cases hBlank : isBlank c = true
      · have hSkip : (s.skip 1).rest = rest := by
          rw [Progress.skip, hRest]
          rfl
        have hTrim : trimBlanks (c :: rest) = trimBlanks (s.skip 1).rest := by
          rw [hSkip, trimBlanks, dropBlanks, List.dropWhile_cons_of_pos hBlank]
          rfl
        simp only [opens_cons, hBlank, if_true, Bool.not_true, Bool.false_eq_true, false_or,
          reduceCtorEq, if_false, hTrim]
        split_ifs with hLine
        · have hNone : ((many true blankClass).run (s.skip 1)).flatMap labelEnding.run = [] := by
            refine List.flatMap_eq_nil_iff.mpr fun t ht => ?_
            rw [run, if_pos rfl, holds_blankClass] at ht
            obtain ⟨n, hn, rfl⟩ := List.mem_map.mp (List.mem_reverse.mp ht)
            exact run_labelEnding_of_line (Nat.lt_succ_iff.mp (List.mem_range.mp hn)) hLine
          rw [if_neg fun hAll => List.ne_nil_of_mem hLine
            (hTrim ▸ trimBlanks_eq_nil (List.all_eq_true.mp hAll))] at hEnding
          rw [hNone, List.nil_append, hEnding]
          rfl
        · have hFirst := head?_labelEnding ((s.skip 1).past isBlank)
          rw [Progress.rest_past] at hFirst
          obtain ⟨t, ht, hGroups⟩ := Option.map_eq_some_iff.mp (hFirst.trans (if_neg hLine))
          rw [run_many_greedy, holds_blankClass, List.flatMap_cons, List.head?_append,
            List.head?_append, ht]
          exact congrArg some hGroups
      · simp [hBlank] at hEnding
        simp [hBlank, hEnding]

/-! The names and the symbol. -/

def fromTarget : Pattern := .seq (.group 5 (.oneOrMore nameClass)) tail

def fromSkip : Pattern := .seq (.many true blankClass) fromTarget

def fromStop : Pattern := .seq (.group 4 (.maybe (.word ['>']))) fromSkip

def fromShape : Pattern :=
  .seq (.group 3 (.oneOf ['-', '|', '-']
    [['-', '|'], ['|', '-'], ['-', '~'], ['~', '-'], ['~'], ['-']])) fromStop

def fromStart : Pattern := .seq (.group 2 (.maybe (.word ['<']))) fromShape

def fromGap : Pattern := .seq (.many true blankClass) fromStart

def fromSource : Pattern := .seq (.group 1 (.oneOrMore nameClass)) fromGap

theorem pattern_eq : pattern = .seq .start (.seq (.many true blankClass) fromSource) := rfl

theorem tail_rejects : tail.Rejects nameClass.holds := by
  intro s hOpens
  have hOther : opens (fun c => !isBlank c) s.rest = true := by
    rw [holds_nameClass] at hOpens
    cases hRest : s.rest with
    | nil => simp [hRest] at hOpens
    | cons c rest =>
        rw [hRest, opens_cons, isNameChar_iff] at hOpens
        simp [hOpens.1]
  have hTail := head?_tail s
  rw [if_pos (.inl hOther), Option.map_eq_none_iff] at hTail
  exact List.head?_eq_none_iff.mp hTail

theorem fromTarget_rejects {q : Char → Bool} (h : ∀ c, q c = true → isNameChar c = false) :
    fromTarget.Rejects q :=
  rejects_group_oneOrMore 5 tail (by rwa [holds_nameClass])

theorem fromTarget_rejects_blank : fromTarget.Rejects blankClass.holds := by
  rw [holds_blankClass]
  exact fromTarget_rejects fun _ => isNameChar_of_isBlank

theorem fromSkip_rejects : fromSkip.Rejects isSymbolChar := by
  refine (fromTarget_rejects fun _ => isNameChar_of_isSymbolChar).many fromTarget_rejects_blank ?_
  rw [holds_blankClass]
  exact fun _ => isBlank_of_isSymbolChar

theorem fromSkip_rejects_stop : fromSkip.Rejects (· == '>') :=
  fromSkip_rejects.mono fun c hc => by rw [eq_of_beq hc]; decide

theorem fromStop_rejects : fromStop.Rejects isShapeChar := by
  refine (fromSkip_rejects.mono fun _ => isSymbolChar_of_isShapeChar).maybe fromSkip_rejects_stop ?_
  intro c hc
  grind [isShapeChar]

theorem words_isShapeChar : ∀ cs ∈ [['-', '|', '-'], ['-', '|'], ['|', '-'], ['-', '~'], ['~', '-'],
    ['~'], ['-']], ∀ c ∈ cs, isShapeChar c = true := by
  simp only [← List.all_eq_true]
  decide

theorem fromShape_rejects {q : Char → Bool} (h : ∀ c, q c = true → isShapeChar c = false) :
    fromShape.Rejects q :=
  rejects_group_oneOf fromStop_rejects words_isShapeChar (by decide) (by decide) h

theorem fromShape_rejects_start : fromShape.Rejects (· == '<') :=
  fromShape_rejects fun c hc => by rw [eq_of_beq hc]; decide

theorem fromStart_rejects {q : Char → Bool} (h : ∀ c, q c = true → isSymbolChar c = false) :
    fromStart.Rejects q := by
  refine (fromShape_rejects fun c hc => ?_).maybe fromShape_rejects_start fun c hc => ?_
  · grind [isSymbolChar_of_isShapeChar]
  · grind [isSymbolChar]

theorem fromStart_rejects_blank : fromStart.Rejects blankClass.holds := by
  rw [holds_blankClass]
  exact fromStart_rejects fun _ => isSymbolChar_of_isBlank

theorem fromGap_rejects : fromGap.Rejects nameClass.holds := by
  rw [holds_nameClass]
  refine (fromStart_rejects fun _ => isSymbolChar_of_isNameChar).many fromStart_rejects_blank ?_
  rw [holds_blankClass]
  exact fun c hc => (isNameChar_iff.mp hc).1

theorem fromSource_rejects : fromSource.Rejects blankClass.holds := by
  refine rejects_group_oneOrMore 1 fromGap ?_
  rw [holds_blankClass, holds_nameClass]
  exact fun _ => isNameChar_of_isBlank

section Scan

variable {s : Progress} {source : List Char} {start stop : Bool} {shape : EdgeShape}

/-- Where a character that may be there has been read. -/
def pastFlag (c : Char) (s : Progress) : Progress :=
  if opens (· == c) s.rest = true then s.skip 1 else s

theorem rest_pastFlag (c : Char) (s : Progress) : (pastFlag c s).rest = (flag c s.rest).2 := by
  rw [pastFlag]
  cases hRest : s.rest with
  | nil => simp [hRest, flag]
  | cons d rest =>
      rw [opens_cons, flag]
      split_ifs with hOpens hSame hSame
      · rw [Progress.skip, hRest]
        rfl
      · exact absurd (eq_of_beq hOpens) hSame
      · exact absurd (beq_iff_eq.mpr hSame) hOpens
      · exact hRest

theorem groups_keep_pastFlag (number : Nat) (c : Char) (s : Progress) :
    (s.keep number (pastFlag c s)).groups = (number, mark c (flag c s.rest).1) :: s.groups := by
  rw [pastFlag]
  cases hRest : s.rest with
  | nil => simp [Progress.keep, flag, mark, hRest]
  | cons d rest =>
      rw [opens_cons, flag]
      split_ifs with hOpens hSame hSame
      · rw [Progress.groups_keep_skip, hRest, hSame]
        rfl
      · exact absurd (eq_of_beq hOpens) hSame
      · exact absurd (beq_iff_eq.mpr hSame) hOpens
      · simp [Progress.keep, mark]

/-- The groups of a match without a label. -/
def keptParts (source target : List Char) (start stop : Bool) (shape : EdgeShape) :
    List (Nat × List Char) :=
  [(5, target), (4, mark '>' stop), (3, shape.symbol.toList), (2, mark '<' start), (1, source)]

theorem ofMatch?_keptParts (source target : List Char) (start stop : Bool) (shape : EdgeShape) :
    ofMatch? ⟨0, [], keptParts source target start stop shape⟩ =
      some ⟨String.ofList source, String.ofList target, ⟨shape, start, stop, false⟩, none⟩ := by
  have hShape := EdgeShape.ofSymbol?_symbol shape
  cases start <;> cases stop <;>
    simp [ofMatch?, keptParts, Progress.group?, List.lookup_cons, mark, hShape]

theorem ofMatch?_keptParts_label (source target : List Char) (start stop : Bool) (shape : EdgeShape)
    (text : List Char) : ofMatch? ⟨0, [], (6, text) :: keptParts source target start stop shape⟩ =
      some ⟨String.ofList source, String.ofList target, ⟨shape, start, stop, false⟩, labelOf text⟩ := by
  have hShape := EdgeShape.ofSymbol?_symbol shape
  cases start <;> cases stop <;> cases text <;>
    simp [ofMatch?, keptParts, Progress.group?, List.lookup_cons, mark, hShape, labelOf]

/-- The second name and the label are read in one pass. -/
theorem bind_fromTarget (hGroups : s.groups =
      [(4, mark '>' stop), (3, shape.symbol.toList), (2, mark '<' start), (1, source)]) :
    (fromTarget.run s).head?.bind ofMatch? =
      if (s.rest.takeWhile isNameChar).isEmpty then none
      else (label? (s.rest.dropWhile isNameChar)).map fun label =>
        ⟨String.ofList source, String.ofList (s.rest.takeWhile isNameChar),
          ⟨shape, start, stop, false⟩, label⟩ := by
  have hMatch (found : Option Progress) : found.bind ofMatch? =
      (found.map Progress.groups).bind fun groups => ofMatch? ⟨0, [], groups⟩ := by
    cases found <;> rfl
  rw [fromTarget, run_group_oneOrMore tail_rejects, holds_nameClass, isEmpty_takeWhile]
  cases hOpens : opens isNameChar s.rest with
  | false => rfl
  | true =>
      have hRest : (s.keep 5 (s.past isNameChar)).rest = s.rest.dropWhile isNameChar :=
        s.rest_past isNameChar
      have hKept : (s.keep 5 (s.past isNameChar)).groups =
          keptParts source (s.rest.takeWhile isNameChar) start stop shape := by
        rw [s.groups_keep_past, hGroups]
        rfl
      rw [if_pos rfl, Bool.not_true, if_neg Bool.false_ne_true, hMatch, head?_tail, hRest, hKept]
      generalize s.rest.dropWhile isNameChar = cs
      split_ifs with hOther hNil
      · have hNone : label? cs = none := by
          refine Option.eq_none_iff_forall_ne_some.mpr fun label hSome => ?_
          obtain ⟨hBlank, hLine⟩ := isTail_iff.mp (label?_eq_some_iff.mp hSome).1
          rw [hBlank] at hOther
          exact hOther.elim Bool.false_ne_true hLine
        rw [hNone]
        rfl
      · subst hNil
        exact ofMatch?_keptParts ..
      · have hTail : IsTail cs := isTail_iff.mpr (by simpa using hOther)
        rw [label?_eq_some_iff.mpr ⟨hTail, rfl⟩]
        exact ofMatch?_keptParts_label ..

theorem mem_words_iff {cs : List Char} : cs ∈ [['-', '|', '-'], ['-', '|'], ['|', '-'], ['-', '~'],
    ['~', '-'], ['~'], ['-']] ↔ ∃ shape : EdgeShape, shape.symbol.toList = cs := by
  constructor
  · intro h
    simp only [List.mem_cons, List.not_mem_nil, or_false] at h
    rcases h with rfl | rfl | rfl | rfl | rfl | rfl | rfl
    · exact ⟨.orthogonal, rfl⟩
    · exact ⟨.horizontalVertical, rfl⟩
    · exact ⟨.verticalHorizontal, rfl⟩
    · exact ⟨.curvedStart, rfl⟩
    · exact ⟨.curvedEnd, rfl⟩
    · exact ⟨.curved, rfl⟩
    · exact ⟨.straight, rfl⟩
  · rintro ⟨shape, rfl⟩
    cases shape <;> decide

/-- What follows the shape is read in one pass. -/
theorem bind_fromStop (hGroups : s.groups =
      [(3, shape.symbol.toList), (2, mark '<' start), (1, source)]) :
    (fromStop.run s).head?.bind ofMatch? =
      let (stop, cs) := flag '>' s.rest
      let cs := dropBlanks cs
      if (cs.takeWhile isNameChar).isEmpty then none
      else (label? (cs.dropWhile isNameChar)).map fun label =>
        ⟨String.ofList source, String.ofList (cs.takeWhile isNameChar), ⟨shape, start, stop, false⟩,
          label⟩ := by
  have hRest : ((s.keep 4 (pastFlag '>' s)).past isBlank).rest = dropBlanks (flag '>' s.rest).2 := by
    rw [Progress.rest_past, ← rest_pastFlag]
    rfl
  have hKept : ((s.keep 4 (pastFlag '>' s)).past isBlank).groups =
      [(4, mark '>' (flag '>' s.rest).1), (3, shape.symbol.toList), (2, mark '<' start), (1, source)] := by
    change (s.keep 4 (pastFlag '>' s)).groups = _
    rw [groups_keep_pastFlag, hGroups]
  have hRun : fromStop.run s = fromTarget.run ((s.keep 4 (pastFlag '>' s)).past isBlank) := by
    rw [fromStop, run_group_maybe fromSkip_rejects_stop, fromSkip, run_many fromTarget_rejects_blank,
      holds_blankClass]
    rfl
  rw [hRun, bind_fromTarget hKept, hRest]

/-- The shape is what there is of its characters. -/
theorem bind_fromShape (hGroups : s.groups = [(2, mark '<' start), (1, source)]) :
    (fromShape.run s).head?.bind ofMatch? =
      (EdgeShape.ofSymbol? (String.ofList (s.rest.takeWhile isShapeChar))).bind fun shape =>
        let (stop, cs) := flag '>' (s.rest.dropWhile isShapeChar)
        let cs := dropBlanks cs
        if (cs.takeWhile isNameChar).isEmpty then none
        else (label? (cs.dropWhile isNameChar)).map fun label =>
          ⟨String.ofList source, String.ofList (cs.takeWhile isNameChar), ⟨shape, start, stop, false⟩,
            label⟩ := by
  rw [fromShape, run_group_oneOf fromStop_rejects words_isShapeChar (by decide)]
  split_ifs with hWord
  · obtain ⟨shape, hShape⟩ := mem_words_iff.mp hWord
    have hKept : (s.keep 3 (s.past isShapeChar)).groups =
        [(3, shape.symbol.toList), (2, mark '<' start), (1, source)] := by
      rw [s.groups_keep_past, hGroups, hShape]
    have hRest : (s.keep 3 (s.past isShapeChar)).rest = s.rest.dropWhile isShapeChar :=
      s.rest_past isShapeChar
    rw [bind_fromStop hKept, hRest, ← hShape, String.ofList_toList, EdgeShape.ofSymbol?_symbol]
    rfl
  · have hNone : EdgeShape.ofSymbol? (String.ofList (s.rest.takeWhile isShapeChar)) = none := by
      refine Option.eq_none_iff_forall_ne_some.mpr fun shape hSome => hWord (mem_words_iff.mpr ⟨shape, ?_⟩)
      rw [symbol_of_ofSymbol? hSome, String.toList_ofList]
    rw [hNone]
    rfl

/-- A text is read in one pass, and gives the edge that the pattern finds in it. -/
theorem ofText?_eq_ofPattern? (text : String) : ofText? text = ofPattern? text := by
  obtain ⟨first, hFirst⟩ : ∃ first, first = (⟨0, text.toList, []⟩ : Progress).past isBlank := ⟨_, rfl⟩
  have hLead : first.rest = dropBlanks text.toList := hFirst ▸ Progress.rest_past _ isBlank
  have hEmpty : first.groups = [] := hFirst ▸ rfl
  have hRun : pattern.run ⟨0, text.toList, []⟩ = fromSource.run first := by
    rw [pattern_eq, hFirst]
    change (seq (many true blankClass) fromSource).run _ ++ [] = _
    rw [List.append_nil, run_many fromSource_rejects, holds_blankClass]
  obtain ⟨second, hSecond⟩ : ∃ second, second = (first.keep 1 (first.past isNameChar)).past isBlank :=
    ⟨_, rfl⟩
  have hGap : second.rest = dropBlanks (first.rest.dropWhile isNameChar) := by
    rw [hSecond, Progress.rest_past, ← Progress.rest_past first isNameChar]
    rfl
  have hSource : second.groups = [(1, first.rest.takeWhile isNameChar)] := by
    rw [hSecond, ← hEmpty, ← Progress.groups_keep_past]
    rfl
  have hShape : (second.keep 2 (pastFlag '<' second)).rest = (flag '<' second.rest).2 :=
    rest_pastFlag '<' second
  have hStart : (second.keep 2 (pastFlag '<' second)).groups =
      [(2, mark '<' (flag '<' second.rest).1), (1, first.rest.takeWhile isNameChar)] := by
    rw [groups_keep_pastFlag, hSource]
  have hFound : ofPattern? text = if opens isNameChar first.rest = true then
      (fromShape.run (second.keep 2 (pastFlag '<' second))).head?.bind ofMatch? else none := by
    change (pattern.run ⟨0, text.toList, []⟩).head?.bind ofMatch? = _
    rw [hRun, fromSource, run_group_oneOrMore fromGap_rejects, holds_nameClass]
    split_ifs
    · rw [fromGap, run_many fromStart_rejects_blank, holds_blankClass, ← hSecond, fromStart,
        run_group_maybe fromShape_rejects_start]
      rfl
    · rfl
  rw [hFound, bind_fromShape hStart, hShape, hGap, hLead, ofText?]
  have hSome := isEmpty_takeWhile isNameChar (dropBlanks text.toList)
  cases hOpens : opens isNameChar (dropBlanks text.toList) with
  | false =>
      rw [hOpens] at hSome
      simp only [hSome, Bool.not_false, Bool.true_or, if_true]
      cases EdgeShape.ofSymbol? _ <;> rfl
  | true =>
      rw [hOpens] at hSome
      simp only [hSome, Bool.not_true, Bool.false_or, if_true]
      refine congrArg (Option.bind _) (funext fun shape => ?_)
      split_ifs
      · rfl
      · cases label? _ <;> rfl

end Scan

end EdgeSpec
end TimingDiagram
