import TimingDiagram.Proofs.Figure.Strokes

/-! Heads and feet in exact arithmetic. The space that a layout keeps for a caption is filled by its two
rows, with the title on the outer side, and the numbers stand at the borders and the centres of the
columns. Only a font size below zero can turn the rows over. -/
namespace TimingDiagram

/-- A horizontal band, from its top down to its bottom. -/
structure Band (K : Type) where
  top : K
  bottom : K

namespace Band

variable {K : Type} [Field K]

def height (b : Band K) : K := b.bottom - b.top

def middle (b : Band K) : K := (b.top + b.bottom) / (2 : ℕ)

/-- Whether some bands lead from a place down to another one, each from where the one before it ends. -/
def Stacked (top : K) : List (Band K) → K → Prop
  | [], bottom => top = bottom
  | b :: rest, bottom => b.top = top ∧ Stacked b.bottom rest bottom

variable [LinearOrder K] [IsStrictOrderedRing K] {b c : Band K} {top bottom : K}

theorem middle_eq (y h : K) : (⟨y, y + h⟩ : Band K).middle = y + h / 2 := by
  rw [middle, Nat.cast_ofNat]
  ring

/-- Of two bands that follow one another, the upper one has the upper middle where they have any
height together. -/
theorem Stacked.middle_lt_iff (h : Stacked top [b, c] bottom) :
    b.middle < c.middle ↔ 0 < b.height + c.height := by
  obtain ⟨_, hNext, _⟩ := h
  rw [middle, middle, height, height, hNext, Nat.cast_ofNat, div_lt_div_iff_of_pos_right two_pos]
  constructor <;> intro hOrder <;> linarith

end Band

namespace Caption

/-- A step fits as often below a limit as there are multiples of it. -/
theorem multiples_eq_filter {step : Nat} (h : 1 ≤ step) (limit : Nat) :
    multiples step limit = (List.range limit).filter (step ∣ ·) := by
  induction limit with
  | zero => simp [multiples, Nat.div_eq_of_lt (Nat.sub_one_lt_of_lt h)]
  | succ limit ih =>
      have hCount : limit + 1 + step - 1 = (limit + step - 1) + 1 := by omega
      have hLast : step ∣ (limit + step - 1) + 1 ↔ step ∣ limit := by
        rw [show (limit + step - 1) + 1 = limit + step by omega, Nat.dvd_add_self_right]
      rw [List.range_succ, List.filter_append, ← ih, multiples, multiples, hCount]
      by_cases hMultiple : step ∣ limit
      · obtain ⟨k, rfl⟩ := hMultiple
        have hPlace : (step * k + step - 1) / step = k := by
          rw [Nat.add_sub_assoc h, Nat.mul_add_div h, Nat.div_eq_of_lt (by omega), Nat.add_zero]
        rw [Nat.succ_div_of_dvd (hLast.mpr ⟨k, rfl⟩), hPlace, List.range_succ, List.map_append]
        simp [Nat.mul_comm]
      · rw [Nat.succ_div_of_not_dvd (mt hLast.mp hMultiple)]
        simp [hMultiple]

variable {K : Type}

/-- The numbers from `start` on at some places of a row, if there is a start. -/
def labels (start : Option Int) (places : List Nat) (x : Nat → K) (y : K) : List (PlacedText K) :=
  match start with
  | none => []
  | some first => places.map fun (i : Nat) => ⟨toString (first + i), ⟨x i, y⟩⟩

variable [Field K]

/-- Whether two bands are the rows of a caption: each has its height, and together they lead from the top
of a band to its bottom, the title on the outer side. -/
structure Splits (note : Caption) (o : Options K) (band : Band K) (above : Bool)
    (titles numbers : Band K) : Prop where
  titleRow : titles.height = if note.hasTitle then o.fontSize + 8 else 0
  numberRow : numbers.height = if note.hasNumbers then o.fontSize + 4 else 0
  stacked : Band.Stacked band.top (if above then [titles, numbers] else [numbers, titles]) band.bottom

/-- What stands in the rows of a caption: its title in the middle of the one, and in the middle of the
other the numbers of the borders, the end of the last column included, and then those of the columns. -/
structure Stands [Scalar K] (note : Caption) (l : Layout K) (titles numbers : Band K)
    (c : PlacedCaption K) : Prop where
  title : c.title = (note.text.filter fun s => !s.isEmpty).map fun s =>
    ⟨s, ⟨l.schemaX + l.grid.width / 2, titles.middle⟩⟩
  numbers : c.numbers =
    labels note.tick ((List.range (l.grid.total + 1)).filter (note.every ∣ ·))
      (fun i => l.schemaX + l.grid.offset i) numbers.middle ++
    labels note.tock ((List.range l.grid.total).filter (note.every ∣ ·))
      (fun i => l.schemaX + (l.grid.offset i + l.grid.offset (i + 1)) / 2) numbers.middle

variable [LinearOrder K] [IsStrictOrderedRing K] {note : Caption} {o : Options K}
  {band titles numbers : Band K} {above : Bool}

/-- The rows do not overlap, unless the font size is negative. -/
theorem Splits.upright (h : note.Splits o band above titles numbers) (hFont : -4 ≤ o.fontSize) :
    titles.top ≤ titles.bottom ∧ numbers.top ≤ numbers.bottom := by
  rw [← sub_nonneg, ← sub_nonneg (b := numbers.top)]
  change 0 ≤ titles.height ∧ 0 ≤ numbers.height
  rw [h.titleRow, h.numberRow]
  constructor <;> split_ifs <;> linarith

/-- The title is on the outer side of the numbers, unless the font size is negative. -/
theorem Splits.outer_iff (h : note.Splits o band above titles numbers) (hTitle : note.hasTitle)
    (hNumbers : note.hasNumbers) :
    (if above then titles.middle < numbers.middle else numbers.middle < titles.middle) ↔
      -6 < o.fontSize := by
  have hTitles : titles.height = o.fontSize + 8 := by rw [h.titleRow, if_pos hTitle]
  have hRest : numbers.height = o.fontSize + 4 := by rw [h.numberRow, if_pos hNumbers]
  have hStacked := h.stacked
  cases above with
  | true =>
      rw [if_pos rfl] at hStacked ⊢
      rw [hStacked.middle_lt_iff, hTitles, hRest]
      constructor <;> intro hFont <;> linarith
  | false =>
      rw [if_neg Bool.false_ne_true] at hStacked ⊢
      rw [hStacked.middle_lt_iff, hTitles, hRest]
      constructor <;> intro hFont <;> linarith

variable [FloorRing K] [Scalar K] [ExactScalar K]

theorem titleRow_eq (note : Caption) (o : Options K) :
    note.titleRow o = if note.hasTitle then o.fontSize + 8 else 0 := by
  simp [titleRow]

theorem numberRow_eq (note : Caption) (o : Options K) :
    note.numberRow o = if note.hasNumbers then o.fontSize + 4 else 0 := by
  simp [numberRow]

theorem height_some (note : Caption) (o : Options K) :
    height (some note) o = note.titleRow o + note.numberRow o := by
  rw [height, Scalar.zero_eq, zero_add]

section Places

variable (o : Options K) {widths : List K} {i : Nat}

theorem xAt_border (h : i ≤ widths.length) :
    (Grid.ofWidths o widths).xAt (border i) = .ok ((Grid.ofWidths o widths).offset i) := by
  rw [border, Grid.xAt_ofWidths o widths h, Grid.offset_ofWidths o widths h]

theorem xAt_centre (h : i < widths.length) :
    (Grid.ofWidths o widths).xAt (centre i) =
      .ok (((Grid.ofWidths o widths).offset i + (Grid.ofWidths o widths).offset (i + 1)) / 2) := by
  have hSome : widths ≠ [] := List.length_pos_iff.mp (Nat.zero_lt_of_lt h)
  have hCentre : (centre i : K) = i + 1 / 2 := by simp [centre]
  rw [hCentre, Grid.xAt_ofWidths_eq_along o hSome,
    Grid.along_of_within h (.inr (by linarith)) (by linarith), Grid.offset_ofWidths o widths h.le,
    Grid.offset_ofWidths o widths h, List.sum_take_succ widths i h]
  congr 1
  ring

theorem numbers_eq {grid : Grid K} {position x : Nat → K} {places : List Nat} (schemaX y : K)
    (start : Option Int) (h : ∀ i ∈ places, grid.xAt (position i) = .ok (x i)) :
    Caption.numbers grid schemaX y position start places =
      .ok (labels start places (fun i => schemaX + x i) y) := by
  cases start with
  | none => rfl
  | some first =>
      rw [Caption.numbers, labels]
      induction places with
      | nil => rfl
      | cons i places ih =>
          obtain ⟨hFirst, hRest⟩ := List.forall_mem_cons.mp h
          rw [List.mapM_cons, ih hRest, hFirst]
          simp

end Places

section Rows

/-- The row of the title of a caption that starts at `y`. -/
def titleBand (note : Caption) (o : Options K) (y : K) (above : Bool) : Band K :=
  if above then ⟨y, y + note.titleRow o⟩
  else ⟨y + note.numberRow o, y + note.numberRow o + note.titleRow o⟩

/-- The row of its numbers. -/
def numberBand (note : Caption) (o : Options K) (y : K) (above : Bool) : Band K :=
  if above then ⟨y + note.titleRow o, y + note.titleRow o + note.numberRow o⟩
  else ⟨y, y + note.numberRow o⟩

/-- The two rows take the height that is kept for the caption. -/
theorem splits_bands (note : Caption) (o : Options K) (y : K) (above : Bool) :
    note.Splits o ⟨y, y + height (some note) o⟩ above (note.titleBand o y above)
      (note.numberBand o y above) := by
  rw [height_some]
  cases above with
  | true => constructor <;> simp [titleBand, numberBand, Band.height, Band.Stacked, titleRow_eq,
      numberRow_eq, add_assoc]
  | false => constructor <;> simp [titleBand, numberBand, Band.height, Band.Stacked, titleRow_eq,
      numberRow_eq, add_assoc, add_comm]

/-- A caption is placed with its texts in the middle of its rows. -/
theorem stands_of_place {l : Layout K} {widths : List K} {y : K} {c : PlacedCaption K}
    (hGrid : l.grid = Grid.ofWidths o widths) (hEvery : 1 ≤ note.every)
    (h : note.place y l.schemaX l.grid o above = .ok c) :
    note.Stands l (note.titleBand o y above) (note.numberBand o y above) c := by
  have hTotal : l.grid.total = widths.length := by
    rw [hGrid]
    rfl
  have hTicks : ∀ i ∈ multiples note.every (l.grid.total + 1),
      l.grid.xAt (border i) = .ok (l.grid.offset i) := by
    intro i hi
    rw [multiples_eq_filter hEvery, List.mem_filter, List.mem_range, hTotal] at hi
    rw [hGrid, xAt_border o (Nat.le_of_lt_succ hi.1)]
  have hTocks : ∀ i ∈ multiples note.every l.grid.total,
      l.grid.xAt (centre i) = .ok ((l.grid.offset i + l.grid.offset (i + 1)) / 2) := by
    intro i hi
    rw [multiples_eq_filter hEvery, List.mem_filter, List.mem_range, hTotal] at hi
    rw [hGrid, xAt_centre o hi.1]
  have hTitle : (note.titleBand o y above).middle =
      if above then y + note.titleRow o / 2 else y + note.numberRow o + note.titleRow o / 2 := by
    cases above <;> exact Band.middle_eq _ _
  have hNumbers : (note.numberBand o y above).middle =
      if above then y + note.titleRow o + note.numberRow o / 2 else y + note.numberRow o / 2 := by
    cases above <;> exact Band.middle_eq _ _
  simp only [place, ExactScalar.checked_eq, ok_bind, Scalar.whole_eq, Int.cast_ofNat, ← hTitle,
    ← hNumbers, numbers_eq _ _ _ hTicks, numbers_eq _ _ _ hTocks] at h
  cases h
  rw [multiples_eq_filter hEvery, multiples_eq_filter hEvery]
  exact ⟨rfl, rfl⟩

end Rows

theorem one_le_every_of_declared {part : String} {entries : List (String × Value)}
    {note : Caption} (h : Document.declaredCaption part entries = .ok note) : 1 ≤ note.every := by
  simp only [Document.declaredCaption, pure_bind, throw_eq_error, error_bind] at h
  split at h
  case h_3 => cases h
  all_goals
    obtain ⟨tick, _, h⟩ := bind_eq_ok_iff.mp h
    obtain ⟨tock, _, h⟩ := bind_eq_ok_iff.mp h
    split at h
    · split_ifs at h with hLow
      cases h
      change 1 ≤ Int.toNat _
      omega
    · cases h

end Caption

namespace Document

variable {K : Type}

/-- Whether the numbers of both captions have a step. -/
def Numbered (d : Document K) : Prop :=
  (∀ note ∈ d.head, 1 ≤ note.every) ∧ ∀ note ∈ d.foot, 1 ≤ note.every

theorem one_le_every_of_parseCaption {part : String} {raw : Value} {read : Option Caption}
    (h : (parseCaption part raw).outcome = .ok read) : ∀ note ∈ read, 1 ≤ note.every := by
  unfold parseCaption at h
  split at h
  · cases h
    exact nofun
  · obtain ⟨note, hNote, rfl⟩ := map_eq_ok_iff.mp h
    rintro _ ⟨⟩
    exact Caption.one_le_every_of_declared hNote
  · cases h

/-- The documents that are read have steps for their numbers. -/
theorem numbered_of_parse [Mul K] [LT K] [LE K] [DecidableLT K] [DecidableLE K] [Scalar K]
    {raw : Value} {base : Options K} {d : Document K} (h : (parse raw base).outcome = .ok d) :
    d.Numbered := by
  obtain ⟨_, _, _, _, _, _, _, hHead, hFoot⟩ := parse_eq_ok_iff.mp h
  exact ⟨one_le_every_of_parseCaption hHead, one_le_every_of_parseCaption hFoot⟩

end Document

variable {K : Type} [Field K] [LinearOrder K] [IsStrictOrderedRing K] [FloorRing K] [Scalar K]
  [ExactScalar K]

namespace Caption

/-- A placed caption and the band that is kept for it: two rows share the band, the one with the title on
the outer side, and the texts stand in the middle of their rows. -/
inductive Occupies (note : Caption) (l : Layout K) (o : Options K) (band : Band K) (above : Bool)
    (c : PlacedCaption K) : Prop
  | rows {titles numbers : Band K} (splits : note.Splits o band above titles numbers)
      (stands : note.Stands l titles numbers c)
      (upright : -4 ≤ o.fontSize → titles.top ≤ titles.bottom ∧ numbers.top ≤ numbers.bottom)
      (outer : note.hasTitle → note.hasNumbers →
        ((if above then titles.middle < numbers.middle else numbers.middle < titles.middle) ↔
          -6 < o.fontSize)) : note.Occupies l o band above c

theorem occupies_of_mapM {note : Option Caption} {l : Layout K} {o : Options K} {widths : List K}
    {band : Band K} {above : Bool} {c : Option (PlacedCaption K)}
    (hGrid : l.grid = Grid.ofWidths o widths) (hEvery : ∀ own ∈ note, 1 ≤ own.every)
    (hBand : band.height = height note o)
    (h : note.mapM (fun own => own.place band.top l.schemaX l.grid o above) = .ok c) :
    Option.Rel (fun own c => own.Occupies l o band above c) note c := by
  cases note with
  | none =>
      cases h
      exact .none
  | some note =>
      obtain ⟨placed, hPlaced, h⟩ := bind_eq_ok_iff.mp h
      cases h
      have hSplits := splits_bands note o band.top above
      rw [← hBand, Band.height, add_sub_cancel] at hSplits
      exact .some (.rows hSplits (stands_of_place hGrid (hEvery note rfl) hPlaced) hSplits.upright
        hSplits.outer_iff)

end Caption

namespace Layout

variable {d : Document K} {o : Options K} {items : List (Item (Compiled K))} {l : Layout K}
  {frame : Frame K} {start : K} {block : Block K} {past : Cursor K}

omit [IsStrictOrderedRing K] [FloorRing K] [ExactScalar K] in
theorem Assembles.axis (h : Assembles o items d.head d.foot l frame start block past) :
    ∃ widths, Grid.columnWidths (Item.signals items) o = .ok widths ∧
      l.grid = Grid.ofWidths o widths := by
  rw [h.grid]
  exact Frame.of_frameOf h.framed

/-- The bands between the paddings and the lanes are those that the captions take. -/
theorem Assembles.heights (h : Assembles o items d.head d.foot l frame start block past) :
    (⟨o.paddingTop, l.schemaY⟩ : Band K).height = Caption.height d.head o ∧
      (⟨l.schemaY + l.schemaHeight, l.height - o.paddingBottom⟩ : Band K).height =
        Caption.height d.foot o := by
  rw [Band.height, Band.height, h.schemaY, CheckedScalar.eq_of_checked h.height, h.schemaY]
  constructor <;> ring

/-- Head and foot fill their bands. -/
theorem Assembles.captions (h : Assembles o items d.head d.foot l frame start block past)
    (hNumbered : d.Numbered) :
    Option.Rel (fun note c => note.Occupies l o ⟨o.paddingTop, l.schemaY⟩ true c) d.head l.head ∧
      Option.Rel (fun note c => note.Occupies l o
        ⟨l.schemaY + l.schemaHeight, l.height - o.paddingBottom⟩ false c) d.foot l.foot := by
  obtain ⟨widths, _, hGrid⟩ := h.axis
  obtain ⟨hAbove, hBelow⟩ := h.heights
  exact ⟨Caption.occupies_of_mapM hGrid hNumbered.1 hAbove h.above,
    Caption.occupies_of_mapM hGrid hNumbered.2 hBelow h.below⟩

/-- Whatever document has been read, its head and its foot fill their bands. -/
theorem captions_of_parse {raw : Value} {base : Options K}
    (hParse : (Document.parse raw base).outcome = .ok d) (h : (d.layout o).outcome = .ok l) :
    Option.Rel (fun note c => note.Occupies l o ⟨o.paddingTop, l.schemaY⟩ true c) d.head l.head ∧
      Option.Rel (fun note c => note.Occupies l o
        ⟨l.schemaY + l.schemaHeight, l.height - o.paddingBottom⟩ false c) d.foot l.foot := by
  obtain ⟨items, _, hLayout⟩ := Document.layout_eq_ok_iff.mp h
  obtain ⟨_, _, _, _, hParts⟩ := assembles_of_ofItems (of_compute hLayout)
  exact hParts.captions (Document.numbered_of_parse hParse)

/-- Head and foot fill the bands that are kept for them, the head between the upper padding and the lanes
and the foot between the lanes and the lower padding. The two rows of a caption lead from the top of its
band to the bottom, and do not overlap unless the font size is negative; the title is on the outer side
of the numbers as long as the rows have any height together. The numbers are those of the borders and of
the columns of the time axis at multiples of their step. -/
theorem layout_fills_captions (hNumbered : d.Numbered) (h : (d.layout o).outcome = .ok l) :
    let above : Band K := ⟨o.paddingTop, l.schemaY⟩
    let below : Band K := ⟨l.schemaY + l.schemaHeight, l.height - o.paddingBottom⟩
    above.height = Caption.height d.head o ∧ below.height = Caption.height d.foot o ∧
      Option.Rel (fun note c => note.Occupies l o above true c) d.head l.head ∧
      Option.Rel (fun note c => note.Occupies l o below false c) d.foot l.foot ∧
      l.grid.offsets.size = l.grid.total + 1 ∧
      ∃ items, d.compile.outcome = .ok items ∧ Grid.build (Item.signals items) o = .ok l.grid := by
  obtain ⟨items, hItems, hLayout⟩ := Document.layout_eq_ok_iff.mp h
  obtain ⟨frame, start, block, past, hParts⟩ := assembles_of_ofItems (of_compute hLayout)
  obtain ⟨widths, hWidths, hGrid⟩ := hParts.axis
  obtain ⟨hAbove, hBelow⟩ := hParts.heights
  obtain ⟨hHead, hFoot⟩ := hParts.captions hNumbered
  refine ⟨hAbove, hBelow, hHead, hFoot, ?_, items, hItems, ?_⟩
  · rw [hGrid, Grid.ofWidths, List.size_toArray, length_runningSums]
    rfl
  · rw [Grid.build, hWidths, hGrid]
    rfl

end Layout

namespace Document

/-- A lane of one cycle under a title and the numbers of its borders, in a font of some size. -/
noncomputable def headed (size : ℝ) : Document ℝ :=
  { lone { name := "a", wave := "0", phase := 0 } with
    options := { Options.default with fontSize := size }
    head := some { text := some "T", tick := some 0 } }

theorem numbered_headed (size : ℝ) : (headed size).Numbered := by
  refine ⟨?_, nofun⟩
  rintro _ ⟨⟩
  exact le_rfl

theorem accepted_headed (size : ℝ) : (headed size).options.Accepted := by
  have h : (Options.default : Options ℝ).Accepted := Options.accepted_default
  exact ⟨h.cycleWidth, h.hscale, h.gapShrink, h.waveHeight, h.transition, h.colours⟩

/-- No font size keeps the lane from being placed. -/
theorem layout_headed (size : ℝ) :
    ∃ l, ((headed size).layout (headed size).options).outcome = .ok l := by
  have hSound : (lone { name := "a", wave := "0", phase := 0 }).Sound :=
    sound_lone [⟨'0', .low, none⟩] rfl (by decide) (by decide) (by decide)
  have hValid : (lone { name := "a", wave := "0", phase := 0 }).Valid := valid_lone le_rfl
  exact succeeds_layout (render_of_sound (d := headed size) ⟨hValid.periods, accepted_headed size⟩
    ⟨hSound.signals, hSound.anchors⟩)

theorem paddingTop_headed (size : ℝ) : (headed size).options.paddingTop = 8 := by
  simp [headed, Options.default]

theorem height_headed (size : ℝ) :
    Caption.height (headed size).head (headed size).options = 2 * size + 12 := by
  have hSize : (headed size).options.fontSize = size := rfl
  change Caption.height (some { text := some "T", tick := some 0 }) _ = _
  rw [Caption.height_some, Caption.titleRow_eq, Caption.numberRow_eq, if_pos (by decide),
    if_pos (by decide), hSize]
  ring

/-- The title and the first number stand in the middle of rows that follow the padding. -/
theorem texts_headed {size : ℝ} {l : Layout ℝ} {c : PlacedCaption ℝ} {bottom : ℝ}
    (h : Caption.Occupies { text := some "T", tick := some 0 } l (headed size).options
      ⟨(headed size).options.paddingTop, bottom⟩ true c) :
    ∃ t n rest, c.title = some t ∧ t.text = "T" ∧ c.numbers = n :: rest ∧ n.text = "0" ∧
      t.point.y = 12 + size / 2 ∧ n.point.y = 18 + size * (3 / 2) := by
  obtain @⟨titles, numbers, ⟨hTitles, hNumbers, hTop, hNext, hBottom⟩, ⟨hTitle, hRow⟩, _⟩ := h
  have hSize : (headed size).options.fontSize = size := rfl
  rw [Band.height, hSize, if_pos (by decide)] at hTitles hNumbers
  rw [paddingTop_headed] at hTop
  rw [List.range_succ_eq_map, List.filter_cons_of_pos (by decide)] at hRow
  refine ⟨_, _, _, hTitle, rfl, hRow, rfl, ?_, ?_⟩
  · change (titles.top + titles.bottom) / (2 : ℕ) = _
    rw [Nat.cast_ofNat]
    linarith
  · change (numbers.top + numbers.bottom) / (2 : ℕ) = _
    rw [Nat.cast_ofNat]
    linarith

/-- Text of a size below zero turns the rows of a head over, so that its title is below its numbers. -/
theorem title_below_numbers : (headed (-10)).Numbered ∧ (headed (-10)).options.check = .ok () ∧
    ∃ l c t n, ((headed (-10)).layout (headed (-10)).options).outcome = .ok l ∧ l.head = some c ∧
      c.title = some t ∧ n ∈ c.numbers ∧ n.point.y < t.point.y := by
  obtain ⟨l, hl⟩ := layout_headed (-10)
  obtain ⟨items, _, hLayout⟩ := layout_eq_ok_iff.mp hl
  obtain ⟨_, _, _, _, hParts⟩ := Layout.assembles_of_ofItems (Layout.of_compute hLayout)
  obtain ⟨hHead, _⟩ := hParts.captions (numbered_headed (-10))
  generalize hc : l.head = c at hHead
  cases hHead with
  | @some _ c hOccupies =>
      obtain ⟨t, n, rest, ht, _, hn, _, hTitle, hNumber⟩ := texts_headed hOccupies
      refine ⟨numbered_headed (-10), Options.check_eq_ok_iff.mpr (accepted_headed (-10)), l, c, t, n,
        hl, hc, ht, by simp [hn], ?_⟩
      rw [hTitle, hNumber]
      norm_num

end Document

/-- In a font of ten the head of the lane has its title above its numbers. -/
theorem Layout.layout_fills_captions_headed : (Document.headed 10).Numbered ∧
    ∃ l c t n rest, ((Document.headed 10).layout (Document.headed 10).options).outcome = .ok l ∧
      l.head = some c ∧ c.title = some t ∧ t.text = "T" ∧ c.numbers = n :: rest ∧ n.text = "0" ∧
      t.point.y = 17 ∧ n.point.y = 33 ∧ l.schemaY = 40 ∧ l.foot = none := by
  obtain ⟨l, hl⟩ := Document.layout_headed 10
  obtain ⟨hAbove, _, hHead, hFoot, _⟩ :=
    Layout.layout_fills_captions (Document.numbered_headed 10) hl
  generalize hc : l.head = c at hHead
  cases hHead with
  | @some _ c hOccupies =>
      obtain ⟨t, n, rest, ht, hText, hn, hFirst, hTitle, hNumber⟩ := Document.texts_headed hOccupies
      refine ⟨Document.numbered_headed 10, l, c, t, n, rest, hl, hc, ht, hText, hn, hFirst, ?_, ?_, ?_, ?_⟩
      · rw [hTitle]
        norm_num
      · rw [hNumber]
        norm_num
      · rw [Band.height, Document.height_headed, Document.paddingTop_headed] at hAbove
        linarith
      · generalize l.foot = foot at hFoot
        cases hFoot
        rfl

end TimingDiagram
