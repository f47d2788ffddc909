import TimingDiagram.Proofs.Text.Runs
import TimingDiagram.Text.Pattern

/-! Matching without going back. Where the rest of a pattern cannot go on with a character of a class, a
run of that class is read to its end, and of some words only the one that such a run is can be read. -/
namespace TimingDiagram.Text

theorem opens_eq_false {q r : Char → Bool} {cs : List Char} (h : opens q cs = true)
    (hOther : ∀ c, q c = true → r c = false) : opens r cs = false := by
  cases cs with
  | nil => rfl
  | cons c cs => exact hOther c h

section Runs

variable (q : Char → Bool) (cs : List Char)

theorem drop_length_takeWhile : cs.drop (cs.takeWhile q).length = cs.dropWhile q := by
  calc cs.drop (cs.takeWhile q).length
    _ = (cs.takeWhile q ++ cs.dropWhile q).drop (cs.takeWhile q).length := by
      rw [List.takeWhile_append_dropWhile]
    _ = cs.dropWhile q := List.drop_left

theorem take_length_takeWhile : cs.take (cs.takeWhile q).length = cs.takeWhile q :=
  (List.prefix_iff_eq_take.mp (List.takeWhile_prefix q)).symm

theorem isEmpty_takeWhile : (cs.takeWhile q).isEmpty = !opens q cs := by
  cases cs with
  | nil => rfl
  | cons c cs =>
      rw [List.takeWhile_cons, opens_cons]
      cases q c <;> rfl

/-- Within a run there is more of it. -/
theorem opens_drop {n : Nat} (h : n < (cs.takeWhile q).length) : opens q (cs.drop n) = true := by
  have hRun : q (cs.takeWhile q)[n] = true := List.mem_takeWhile_imp (List.getElem_mem h)
  have hSplit : cs.drop n = (cs.takeWhile q).drop n ++ cs.dropWhile q := by
    conv_lhs => rw [← List.takeWhile_append_dropWhile (p := q) (l := cs)]
    exact List.drop_append_of_le_length h.le
  rw [hSplit, List.drop_eq_getElem_cons h]
  exact hRun

end Runs

namespace Progress

variable (s : Progress) (q : Char → Bool) (number : Nat)

/-- Where a run of a class ends. -/
def past : Progress := s.skip (s.rest.takeWhile q).length

theorem rest_past : (s.past q).rest = s.rest.dropWhile q := drop_length_takeWhile q s.rest

theorem groups_keep_skip (n : Nat) :
    (s.keep number (s.skip n)).groups = (number, s.rest.take n) :: s.groups := by
  simp [keep, skip]

theorem groups_keep_past : (s.keep number (s.past q)).groups =
    (number, s.rest.takeWhile q) :: s.groups := by
  rw [past, groups_keep_skip, take_length_takeWhile]

theorem skip_skip (m n : Nat) : (s.skip m).skip n = s.skip (m + n) := by
  simp [skip, Nat.add_assoc]

end Progress

namespace Pattern

/-- Whether a pattern cannot go on with a character of a class. -/
def Rejects (p : Pattern) (q : Char → Bool) : Prop :=
  ∀ s : Progress, opens q s.rest = true → p.run s = []

variable {p : Pattern} {k : CharClass} {q : Char → Bool} {number : Nat}

theorem Rejects.mono {r : Char → Bool} (h : p.Rejects q) (hSome : ∀ c, r c = true → q c = true) :
    p.Rejects r := by
  intro s hOpens
  refine h s ?_
  cases hRest : s.rest with
  | nil => simp [hRest] at hOpens
  | cons c rest =>
      rw [hRest, opens_cons] at hOpens
      exact hSome c hOpens

/-- A run is tried to its end first. -/
theorem run_many_greedy (k : CharClass) (s : Progress) : (many true k).run s =
    s.past k.holds :: ((List.range (s.rest.takeWhile k.holds).length).map s.skip).reverse := by
  rw [run, if_pos rfl, List.range_succ, List.map_append, List.reverse_append]
  rfl

/-- Only at the end of a run its follower can go on. -/
theorem flatMap_many {f : Progress → List Progress} (k : CharClass) (s : Progress)
    (hf : ∀ t, opens k.holds t.rest = true → f t = []) :
    ((many true k).run s).flatMap f = f (s.past k.holds) := by
  have hEarlier : ((List.range (s.rest.takeWhile k.holds).length).map s.skip).reverse.flatMap f = [] := by
    refine List.flatMap_eq_nil_iff.mpr fun t ht => ?_
    obtain ⟨n, hn, rfl⟩ := List.mem_map.mp (List.mem_reverse.mp ht)
    exact hf _ (opens_drop k.holds s.rest (List.mem_range.mp hn))
  rw [run_many_greedy, List.flatMap_cons, hEarlier, List.append_nil]

theorem run_many (hp : p.Rejects k.holds) (s : Progress) :
    (seq (many true k) p).run s = p.run (s.past k.holds) :=
  flatMap_many k s hp

theorem Rejects.many (h : p.Rejects q) (hp : p.Rejects k.holds)
    (hOther : ∀ c, q c = true → k.holds c = false) : (seq (many true k) p).Rejects q := by
  intro s hOpens
  rw [run_many hp]
  refine h _ ?_
  rw [Progress.rest_past, dropWhile_of_opens (opens_eq_false hOpens hOther)]
  exact hOpens

theorem run_oneOrMore (k : CharClass) (s : Progress) : (oneOrMore k).run s =
    if opens k.holds s.rest = true then (many true k).run (s.skip 1) else [] := by
  change (if opens k.holds s.rest = true then [s.skip 1] else []).flatMap (many true k).run = _
  split_ifs
  · exact List.append_nil _
  · rfl

/-- A run that is not empty is kept as far as it goes. -/
theorem run_group_oneOrMore (hp : p.Rejects k.holds) (s : Progress) :
    (seq (group number (oneOrMore k)) p).run s =
      if opens k.holds s.rest = true then p.run (s.keep number (s.past k.holds)) else [] := by
  change (((oneOrMore k).run s).map (s.keep number)).flatMap p.run = _
  rw [run_oneOrMore, List.flatMap_map]
  split_ifs with hOpens
  · rw [flatMap_many (f := fun t => p.run (s.keep number t)) k (s.skip 1) fun t ht => hp _ ht,
      Progress.past, Progress.skip_skip]
    cases hRest : s.rest with
    | nil => simp [hRest] at hOpens
    | cons c rest =>
        rw [hRest, opens_cons] at hOpens
        simp only [Progress.past, Progress.skip, hRest, List.drop_succ_cons, List.drop_zero,
          List.takeWhile_cons_of_pos hOpens, List.length_cons, Nat.add_comm 1]
  · rfl

theorem rejects_group_oneOrMore (number : Nat) (p : Pattern)
    (hOther : ∀ c, q c = true → k.holds c = false) :
    (seq (group number (oneOrMore k)) p).Rejects q := by
  intro s hOpens
  change (((oneOrMore k).run s).map (s.keep number)).flatMap p.run = _
  rw [run_oneOrMore, opens_eq_false hOpens hOther]
  rfl

theorem run_word (cs : List Char) (s : Progress) :
    (word cs).run s = if cs <+: s.rest then [s.skip cs.length] else [] := by
  induction cs generalizing s with
  | nil => rw [if_pos List.nil_prefix]; rfl
  | cons c cs ih =>
      change ((one ⟨false, [c], false⟩).run s).flatMap (word cs).run = _
      rw [run]
      cases hRest : s.rest with
      | nil => simp
      | cons d rest =>
          have hHolds : CharClass.holds ⟨false, [c], false⟩ d = decide (d = c) := by
            simp [CharClass.holds]
          simp only [List.head?_cons, Option.any_some, hHolds, decide_eq_true_eq]
          split_ifs with hSame hPrefix hPrefix
          · have hNext : (s.skip 1).rest = rest := by rw [Progress.skip, hRest]; rfl
            rw [List.flatMap_singleton, ih, hNext, if_pos (List.cons_prefix_cons.mp hPrefix).2,
              Progress.skip_skip, Nat.add_comm]
            rfl
          · have hNext : (s.skip 1).rest = rest := by rw [Progress.skip, hRest]; rfl
            rw [List.flatMap_singleton, ih, hNext,
              if_neg fun h => hPrefix (List.cons_prefix_cons.mpr ⟨hSame.symm, h⟩)]
          · exact absurd (List.cons_prefix_cons.mp hPrefix).1.symm hSame
          · rfl

theorem run_oneOf (first : List Char) (more : List (List Char)) (s : Progress) :
    (oneOf first more).run s = (first :: more).flatMap fun cs => (word cs).run s := by
  induction more generalizing first with
  | nil => exact (List.append_nil _).symm
  | cons second more ih => rw [List.flatMap_cons, ← ih second]; rfl

/-- A word of some class can only be read if it is the whole run. -/
theorem flatMap_word {f : Progress → List Progress} {cs : List Char} {s : Progress}
    (hf : ∀ t, opens q t.rest = true → f t = []) (hWord : ∀ c ∈ cs, q c = true) :
    ((word cs).run s).flatMap f = if s.rest.takeWhile q = cs then f (s.past q) else [] := by
  rw [run_word]
  split_ifs with hPrefix hRun hRun
  · rw [List.flatMap_singleton, Progress.past, hRun]
  · rw [List.flatMap_singleton]
    refine hf _ ?_
    obtain ⟨rest, hRest⟩ := hPrefix
    change opens q (s.rest.drop cs.length) = true
    rw [← hRest, List.drop_left]
    by_contra hOther
    exact hRun (by rw [← hRest, takeWhile_run hWord (Bool.not_eq_true _ ▸ hOther)])
  · exact absurd (hRun ▸ List.takeWhile_prefix q) hPrefix
  · rfl

/-- Of some words of one class the one is kept that the whole run is. -/
theorem run_group_oneOf (hp : p.Rejects q) {first : List Char} {more : List (List Char)}
    (hWords : ∀ cs ∈ first :: more, ∀ c ∈ cs, q c = true) (hDistinct : (first :: more).Nodup)
    (s : Progress) : (seq (group number (oneOf first more)) p).run s =
      if s.rest.takeWhile q ∈ first :: more then p.run (s.keep number (s.past q)) else [] := by
  change (((oneOf first more).run s).map (s.keep number)).flatMap p.run = _
  rw [run_oneOf, List.flatMap_map, List.flatMap_assoc]
  generalize first :: more = words at *
  induction words with
  | nil => rfl
  | cons word words ih =>
      obtain ⟨hWord, hRest⟩ := List.forall_mem_cons.mp hWords
      obtain ⟨hFresh, hOthers⟩ := List.nodup_cons.mp hDistinct
      rw [List.flatMap_cons, flatMap_word (f := fun t => p.run (s.keep number t)) (fun t ht => hp _ ht) hWord,
        ih hRest hOthers]
      by_cases hRun : s.rest.takeWhile q = word
      · rw [if_pos hRun, hRun, if_neg hFresh, if_pos List.mem_cons_self, List.append_nil]
      · rw [if_neg hRun, List.nil_append]
        simp [hRun]

theorem rejects_group_oneOf (hp : p.Rejects q) {first : List Char} {more : List (List Char)}
    (hWords : ∀ cs ∈ first :: more, ∀ c ∈ cs, q c = true) (hDistinct : (first :: more).Nodup)
    (hSome : [] ∉ first :: more) {r : Char → Bool} (hOther : ∀ c, r c = true → q c = false) :
    (seq (group number (oneOf first more)) p).Rejects r := by
  intro s hOpens
  rw [run_group_oneOf hp hWords hDistinct, takeWhile_of_opens (opens_eq_false hOpens hOther),
    if_neg hSome]

/-- A character that may be there is kept if it is, and nothing is kept otherwise. -/
theorem run_group_maybe {c : Char} (hp : p.Rejects (· == c)) (s : Progress) :
    (seq (group number (maybe (word [c]))) p).run s =
      p.run (s.keep number (if opens (· == c) s.rest = true then s.skip 1 else s)) := by
  change (((word [c]).run s ++ [s]).map (s.keep number)).flatMap p.run = _
  rw [List.map_append, List.flatMap_append, run_word]
  cases hRest : s.rest with
  | nil => simp
  | cons d rest =>
      by_cases hSame : d = c
      · have hSecond : p.run (s.keep number s) = [] := hp _ (by
          change opens (· == c) s.rest = true
          simp [hRest, hSame])
        simp [hSame, hSecond]
      · simp [hSame, Ne.symm hSame]

theorem Rejects.maybe {c : Char} (h : p.Rejects q) (hp : p.Rejects (· == c))
    (hOther : ∀ d, q d = true → (d == c) = false) :
    (seq (group number (maybe (word [c]))) p).Rejects q := by
  intro s hOpens
  rw [run_group_maybe hp, opens_eq_false hOpens hOther]
  exact h _ hOpens

end Pattern
end TimingDiagram.Text
