import TimingDiagram.Log.Transcript

/-! Logging set up again and again. A set-up leaves nothing of what was there before, so that from
then on the console shows what it would show had there been no other, and every record of the
program is written once or not at all. -/
namespace TimingDiagram

namespace Action

variable {K : Type}

/-- An action that leaves the handlers alone. -/
def Quiet : Action K → Prop
  | .setup .. => False
  | .log _ => True
  | .render .. => True

/-- The records that an action tells. -/
def told [Add K] [Sub K] [Mul K] [Div K] [LT K] [LE K] [DecidableLT K] [DecidableLE K] [Max K]
    [Min K] [BEq K] [Scalar K] : Action K → List Told
  | .setup .. => []
  | .log told => [told]
  | .render time description options =>
    (description.render options).records.map fun r => ⟨time, r, [], none⟩

end Action

namespace Session

section Names

/-- A name lies under the one before a dot, unless more dots follow that one. -/
theorem mem_enclosing {name more : List Char} (hMore : more.getLast? ≠ some '.') {afterDot : Bool}
    (h : afterDot = true → more ≠ []) : name ∈ enclosing afterDot (more ++ '.' :: name) := by
  induction more generalizing afterDot with
  | nil =>
      cases afterDot with
      | false => exact List.mem_cons_self ..
      | true => exact absurd rfl (h rfl)
  | cons c more ih =>
      rw [List.getLast?_cons] at hMore
      have hRest : more.getLast? ≠ some '.' := by
        intro hLast
        rw [hLast] at hMore
        exact hMore rfl
      rw [List.cons_append, enclosing]
      split
      · next hDot =>
          refine List.mem_cons_of_mem _ (ih hRest fun _ hNil => ?_)
          subst hNil
          simp_all
      · exact ih hRest nofun

theorem exists_of_mem_enclosing {name cs : List Char} {afterDot : Bool}
    (h : name ∈ enclosing afterDot cs) : ∃ more, cs = more ++ '.' :: name := by
  induction cs generalizing afterDot with
  | nil => cases h
  | cons c rest ih =>
      rw [enclosing] at h
      split at h
      · next hDot =>
          rcases List.mem_cons.mp h with rfl | h
          · exact ⟨[], by simp_all⟩
          · obtain ⟨more, rfl⟩ := ih h
            exact ⟨c :: more, rfl⟩
      · obtain ⟨more, rfl⟩ := ih h
        exact ⟨c :: more, rfl⟩

theorem owns_root : owns root = true := Bool.or_eq_true_iff.mpr (.inl (decide_eq_true rfl))

/-- What is told under a name below that of the program belongs to the program. -/
theorem owns_of_below {source : String} {rest : List Char} (hRest : rest.head? ≠ some '.')
    (h : source.toList = root.toList ++ '.' :: rest) : owns source = true := by
  have hMem : root.toList.reverse ∈ enclosing false source.toList.reverse := by
    have hLast : rest.reverse.getLast? ≠ some '.' := by rwa [List.getLast?_reverse]
    have hSplit : source.toList.reverse = rest.reverse ++ '.' :: root.toList.reverse := by
      simp [h]
    rw [hSplit]
    exact mem_enclosing hLast nofun
  simp [owns, hMem]

/-- Nothing else belongs to the program. -/
theorem eq_root_or_below_of_owns {source : String} (h : owns source = true) :
    source = root ∨ ∃ rest, source.toList = root.toList ++ '.' :: rest := by
  rw [owns, Bool.or_eq_true, decide_eq_true_eq, List.contains_iff_mem] at h
  refine h.imp_right fun hMem => ?_
  obtain ⟨more, hMore⟩ := exists_of_mem_enclosing hMem
  exact ⟨more.reverse, List.reverse_inj.mp (by simpa using hMore)⟩

end Names

/-- The handlers of one set-up. -/
def handlersOf (level : Severity) (json file : Bool) : List Handler :=
  ⟨.console, level, json⟩ :: if file then [⟨.file, level, json⟩] else []

/-- What a record writes to the console after one set-up: its line, if it comes from the program
and matters enough. -/
def shown (level : Severity) (json : Bool) (t : Told) : String :=
  if owns t.record.source then
    if level ≤ t.record.level then lineOf ⟨.console, level, json⟩ t else ""
  else lastResort t

/-- Each handler is taken away from the ones that are left, so none is left in the end. -/
theorem removeHandlers_eq (s : Session) : s.removeHandlers = ⟨s.level, []⟩ := by
  obtain ⟨level, handlers⟩ := s
  rw [removeHandlers]
  induction handlers with
  | nil => rfl
  | cons h handlers ih =>
      have hErase : (h :: handlers).erase h = handlers := List.erase_cons_head ..
      simpa only [List.foldl_cons, hErase] using ih

theorem setup_eq (s : Session) (level : Severity) (json file : Bool) :
    s.setup level json file = ⟨level, handlersOf level json file⟩ := by
  rw [setup, removeHandlers_eq]
  cases file <;> rfl

variable {K : Type} [Add K] [Sub K] [Mul K] [Div K] [LT K] [LE K] [DecidableLT K] [DecidableLE K]
  [Max K] [Min K] [BEq K] [Scalar K]

section States

omit [Add K] [Sub K] [Mul K] [Div K] [LT K] [LE K] [DecidableLT K] [DecidableLE K] [Max K] [Min K]
  [BEq K] [Scalar K]

theorem next_of_quiet {action : Action K} (h : action.Quiet) (s : Session) :
    s.next action = s := by
  cases action with
  | setup => exact h.elim
  | log => rfl
  | render => rfl

theorem after_of_quiet {actions : List (Action K)} (h : ∀ a ∈ actions, a.Quiet) (s : Session) :
    s.after actions = s := by
  induction actions with
  | nil => rfl
  | cons a actions ih =>
      obtain ⟨hFirst, hRest⟩ := List.forall_mem_cons.mp h
      rw [after, List.foldl_cons, next_of_quiet hFirst]
      exact ih hRest

end States

theorem transcript_append (s : Session) (before later : List (Action K)) :
    s.transcript (before ++ later) = s.transcript before ++ (s.after before).transcript later := by
  induction before generalizing s with
  | nil => rfl
  | cons a before ih => exact congrArg (s.written a :: ·) (ih (s.next a))

/-- An action writes what its records write. -/
theorem written_eq (s : Session) (action : Action K) :
    s.written action = String.join (action.told.map fun t => s.output t) := by
  cases action with
  | setup => rfl
  | log t => simp [written, Action.told]
  | render time description options =>
      rw [written, outputAll, Action.told, List.map_map]
      rfl

theorem transcript_of_quiet {actions : List (Action K)} (h : ∀ a ∈ actions, a.Quiet)
    (s : Session) : s.transcript actions = actions.map fun a => s.written a := by
  induction actions with
  | nil => rfl
  | cons a actions ih =>
      obtain ⟨hFirst, hRest⟩ := List.forall_mem_cons.mp h
      rw [transcript, next_of_quiet hFirst, ih hRest, List.map_cons]

/-- One of the handlers of a set-up writes to the console. -/
theorem output_of_handlersOf {level : Severity} (hLevel : 1 ≤ level) (json file : Bool) (t : Told) :
    (⟨level, handlersOf level json file⟩ : Session).output t =
      shown level json t := by
  have hSet : (⟨level, handlersOf level json file⟩ : Session).effectiveLevel = level :=
    if_neg (Int.ne_of_gt (Int.lt_of_lt_of_le Int.one_pos hLevel))
  have hConsole : (handlersOf level json file).filter
      (fun h => h.kind = .console && h.level ≤ t.record.level) =
        if level ≤ t.record.level then [⟨.console, level, json⟩] else [] := by
    cases file <;> by_cases h : level ≤ t.record.level <;> simp [handlersOf, h]
  have hSome : (handlersOf level json file).isEmpty = false := rfl
  rw [output, shown, ownOutput, admits, hSet, hConsole, hSome]
  by_cases h : level ≤ t.record.level
  · have hPositive : 0 < t.record.level := Int.lt_of_lt_of_le Int.one_pos (Int.le_trans hLevel h)
    simp [h, hPositive]
  · simp [h]

/-- After a set-up the state of logging is that of this set-up alone, whatever was set up, told and
drawn before and whatever is told and drawn from then on: its level, a console handler, and a file
handler if there is a file, all with its level and form. A record of the program, which is told
under the name of the program or a name below it, is written to the console once, in its form, if it
matters at least as much as the level says, and not at all otherwise. -/
theorem setup_forgets {level : Severity} (hLevel : 1 ≤ level) (json file : Bool) (s : Session)
    (before : List (Action K)) {later : List (Action K)} (hLater : ∀ a ∈ later, a.Quiet) :
    let last := s.after (before ++ .setup level json file :: later)
    (∀ other : Session, last = other.setup level json file) ∧
      last.level = level ∧
      last.handlers = ⟨.console, level, json⟩ :: (if file then [⟨.file, level, json⟩] else []) ∧
      owns root = true ∧
      (∀ source rest, rest.head? ≠ some '.' → source.toList = root.toList ++ '.' :: rest →
        owns source = true) ∧
      (∀ source, owns source = true →
        source = root ∨ ∃ rest, source.toList = root.toList ++ '.' :: rest) ∧
      (∀ t : Told, owns t.record.source = true →
        last.output t =
          if level ≤ t.record.level then lineOf ⟨.console, level, json⟩ t
          else "") ∧
      s.transcript (before ++ .setup level json file :: later) =
        s.transcript before ++
          "" :: later.map fun a => String.join (a.told.map (shown level json)) := by
  have hLast : s.after (before ++ .setup level json file :: later) =
      ⟨level, handlersOf level json file⟩ := by
    rw [after, List.foldl_append, List.foldl_cons]
    exact (after_of_quiet hLater _).trans (setup_eq ..)
  have hShown (t : Told) := output_of_handlersOf hLevel json file t
  refine ⟨fun other => ?_, ?_, ?_, owns_root, fun _ _ => owns_of_below,
    fun _ => eq_root_or_below_of_owns, fun t hOwn => ?_, ?_⟩
  · rw [hLast, setup_eq]
  · rw [hLast]
  · rw [hLast, handlersOf]
  · rw [hLast, hShown, shown, if_pos hOwn]
  · have hSet : (s.after before).next (.setup level json file : Action K) =
        ⟨level, handlersOf level json file⟩ := setup_eq ..
    rw [transcript_append, transcript, hSet, transcript_of_quiet hLater]
    simp only [written_eq, hShown]
    rfl

/-- A warning of the program. -/
def warned : Told :=
  ⟨⟨"2024-01-02 03:04:05,678", "2024-01-02T03:04:05.678000+00:00"⟩,
    ⟨Severity.warning, "wavelane.figure.edges", "broken"⟩, [], none⟩

/-- A second set-up leaves one handler, and a warning is written once and in its form. -/
theorem setup_forgets_twice :
    initial.after [.setup 10 true true, .setup 20 false false, (.log warned : Action Quantity)] =
        ⟨20, [⟨.console, 20, false⟩]⟩ ∧
      initial.transcript
          [.setup 10 true true, .setup 20 false false, (.log warned : Action Quantity)] =
        ["", "", "2024-01-02 03:04:05,678 WARNING wavelane.figure.edges: broken\n"] := by
  have hLevel : (1 : Severity) ≤ 20 := by decide
  have hQuiet : ∀ a ∈ [(.log warned : Action Quantity)], a.Quiet :=
    List.forall_mem_singleton.mpr trivial
  obtain ⟨hState, _, _, _, _, _, _, hWritten⟩ :=
    setup_forgets hLevel false false initial [.setup 10 true true] hQuiet
  exact ⟨hState initial, hWritten⟩

end Session
end TimingDiagram
